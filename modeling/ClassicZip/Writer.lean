import ClassicZip.Draft
import ClassicZip.EntryOptions
import ClassicZip.LocalEntry

/-!
# Writing an archive in memory

A writer is a draft with the image that it is written to. Every change answers with the writer
after it and with how it went; a change that fails leaves the writer as it was. Once closed a
writer has no image, and changes are refused.
-/

namespace ClassicZip

structure Writer where
  draft : Draft
  /-- The bytes written so far, until the archive is closed. -/
  image : Option ByteArray
  deriving DecidableEq

namespace Writer

def fresh : Writer := ⟨.empty, some ByteArray.empty⟩

def ofBytes (image : ByteArray) : Except Fault Writer :=
  match Draft.ofImage image with
  | .error fault => .error fault
  | .ok draft => .ok ⟨draft, some image⟩

def isClosed (writer : Writer) : Bool := writer.image.isNone

def setComment (writer : Writer) (comment : ByteArray) : Writer × Except Fault Unit :=
  match writer with
  | ⟨draft, none⟩ => (⟨draft, none⟩, .error .writerClosed)
  | ⟨draft, some image⟩ =>
    match draft.withComment comment with
    | .error fault => (⟨draft, some image⟩, .error fault)
    | .ok draft => (⟨draft, some image⟩, .ok ())

def push (writer : Writer) (entry : Entry) (localExtra : ByteArray) (alignment : UInt16)
    (stored : ByteArray) : Writer × Except Fault Unit :=
  match writer with
  | ⟨draft, none⟩ => (⟨draft, none⟩, .error .writerClosed)
  | ⟨draft, some image⟩ =>
    match draft.place entry localExtra alignment stored.size with
    | .error fault => (⟨draft, some image⟩, .error fault)
    | .ok placement =>
      (⟨draft.add placement stored.size, some (placement.write stored image)⟩, .ok ())

def addFile [Codec.Coders] (writer : Writer) (name : String) (data : ByteArray)
    (options : EntryOptions) : Writer × Except Fault Unit :=
  if writer.isClosed then (writer, .error .writerClosed)
  else
    match Entry.ofFile name data options with
    | .error fault => (writer, .error fault)
    | .ok (entry, stored) => writer.push entry ByteArray.empty options.alignment stored

def addDirectory (writer : Writer) (name : String) (options : EntryOptions) :
    Writer × Except Fault Unit :=
  if writer.isClosed then (writer, .error .writerClosed)
  else writer.push (Entry.ofDirectory name options) ByteArray.empty 0 ByteArray.empty

/-- Writes the directory and hands over the finished image, which closes the writer. -/
def complete (writer : Writer) : Writer × Except Fault ByteArray :=
  match writer with
  | ⟨draft, none⟩ => (⟨draft, none⟩, .error .writerClosed)
  | ⟨draft, some image⟩ =>
    match draft.trailer with
    | .error fault => (⟨draft, some image⟩, .error fault)
    | .ok trailer => (⟨draft, none⟩, .ok (trailer.write image))

def close (writer : Writer) : Writer × Except Fault Unit :=
  if writer.isClosed then (writer, .ok ())
  else
    match writer.complete with
    | (writer, .error fault) => (writer, .error fault)
    | (writer, .ok _) => (writer, .ok ())

def toBytes (writer : Writer) : Except Fault ByteArray := writer.complete.2

end Writer

end ClassicZip
