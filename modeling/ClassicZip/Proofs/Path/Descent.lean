import ClassicZip.Proofs.Disk.Replacing

/-!
# Names that lead downwards

An entry's name is followed below an output directory only where each of its parts is a name, or
says nothing. `safe?_exact`: just the names that are absolute, climb or say nothing at all are
refused, with backslashes read as slashes. What is left of the others is a path that names something
below the output directory, whatever directory that is, and is followed like this again.
-/

namespace ClassicZip

namespace Path

/-- The name with each backslash read as a slash. -/
def slashed (name : String) : String :=
  String.ofList (name.toList.map fun c => if c = '\\' then '/' else c)

theorem descent?_eq_some_iff {components : List Component} {names : List String} :
    descent? components = some names ↔ .root ∉ components ∧ .up ∉ components ∧
      names = components.filterMap Component.name? := by
  induction components generalizing names with
  | nil => simp [descent?, eq_comm]
  | cons component rest ih =>
    cases component with
    | root => simp [descent?]
    | up => simp [descent?]
    | here => simp [descent?, ih, Component.name?, List.filterMap_cons]
    | name text =>
      simp only [descent?, Option.map_eq_some_iff, ih, List.mem_cons, reduceCtorEq, false_or,
        List.filterMap_cons, Component.name?]
      constructor
      · rintro ⟨names, ⟨hroot, hup, rfl⟩, rfl⟩
        exact ⟨hroot, hup, rfl⟩
      · rintro ⟨hroot, hup, rfl⟩
        exact ⟨_, ⟨hroot, hup, rfl⟩, rfl⟩

theorem safe?_eq (name : String) :
    safe? name = (descent? (components (slashed name))).filter (· ≠ []) := by
  rw [safe?, slashed]
  cases descent? (components (String.ofList (name.toList.map
    fun c => if c = '\\' then '/' else c))) with
  | none => rfl
  | some names => cases names <;> rfl

theorem safe?_eq_some_iff {name : String} {names : List String} : safe? name = some names ↔
    isAbsolute (slashed name) = false ∧ ".." ∉ pieces (slashed name) ∧
      names = ((pieces (slashed name)).filter fun piece => piece ≠ "" ∧ piece ≠ ".") ∧
      names ≠ [] := by
  have hmeans (h : ".." ∉ pieces (slashed name)) :
      ((pieces (slashed name)).filter fun piece => piece ≠ "" ∧ piece ≠ "." ∧ piece ≠ "..") =
        (pieces (slashed name)).filter fun piece => piece ≠ "" ∧ piece ≠ "." := by
    refine List.filter_congr fun piece hpiece => ?_
    have hdots : piece ≠ ".." := fun hdots => h (hdots ▸ hpiece)
    simp [hdots]
  rw [safe?_eq, Option.filter_eq_some_iff, descent?_eq_some_iff, root_mem_components_iff,
    up_mem_components_iff, Bool.not_eq_true, names_components, decide_eq_true_eq]
  constructor
  · rintro ⟨⟨habsolute, hup, hnames⟩, hne⟩
    exact ⟨habsolute, hup, hnames.trans (hmeans hup), hne⟩
  · rintro ⟨habsolute, hup, hnames, hne⟩
    exact ⟨⟨habsolute, hup, hnames.trans (hmeans hup).symm⟩, hne⟩

section
variable {name : String} {names : List String}

theorem ne_nil_of_safe? (h : safe? name = some names) : names ≠ [] :=
  (safe?_eq_some_iff.mp h).2.2.2

theorem isName_of_safe? (h : safe? name = some names) : ∀ text ∈ names, IsName text := by
  obtain ⟨-, hup, rfl, -⟩ := safe?_eq_some_iff.mp h
  intro text htext
  obtain ⟨hpiece, hsays⟩ := List.mem_filter.mp htext
  obtain ⟨hempty, hdot⟩ := of_decide_eq_true hsays
  exact ⟨hempty, hdot, fun hdots => hup (hdots ▸ hpiece), slash_notMem_of_mem_pieces hpiece⟩

theorem isSome_safe?_iff : (safe? name).isSome = true ↔ isAbsolute (slashed name) = false ∧
    ".." ∉ pieces (slashed name) ∧ ∃ piece ∈ pieces (slashed name), piece ≠ "" ∧ piece ≠ "." := by
  simp only [Option.isSome_iff_exists, safe?_eq_some_iff]
  constructor
  · rintro ⟨_, habsolute, hup, rfl, hne⟩
    obtain ⟨piece, hpiece⟩ := List.exists_mem_of_ne_nil _ hne
    obtain ⟨hmem, hsays⟩ := List.mem_filter.mp hpiece
    exact ⟨habsolute, hup, piece, hmem, of_decide_eq_true hsays⟩
  · rintro ⟨habsolute, hup, piece, hmem, hsays⟩
    exact ⟨_, habsolute, hup, rfl,
      List.ne_nil_of_mem (List.mem_filter.mpr ⟨hmem, decide_eq_true hsays⟩)⟩

-- ---------------------------------------------------------------------------
-- Slashes and backslashes
-- ---------------------------------------------------------------------------

theorem slashed_eq_self (h : '\\' ∉ name.toList) : slashed name = name := by
  have hchars : name.toList.map (fun c => if c = '\\' then '/' else c) = name.toList :=
    (List.map_congr_left fun c hc => if_neg fun hback : c = '\\' => h (hback ▸ hc)).trans
      (List.map_id' _)
  rw [slashed, hchars, String.ofList_toList]

theorem backslash_notMem_slashed (name : String) : '\\' ∉ (slashed name).toList := by
  rw [slashed, String.toList_ofList, List.mem_map]
  rintro ⟨c, -, hc⟩
  split at hc
  · cases hc
  · rename_i hne
    exact hne hc

theorem slashed_append (front back : String) :
    slashed (front ++ back) = slashed front ++ slashed back := by
  simp [slashed]

theorem slashed_ofNames (texts : List String) :
    slashed (ofNames texts) = ofNames (texts.map slashed) := by
  induction texts with
  | nil => rfl
  | cons text rest ih =>
    cases rest with
    | nil => simp [ofNames]
    | cons next more =>
      have hslash : slashed "/" = "/" := rfl
      rw [ofNames, String.intercalate_cons_cons, slashed_append, slashed_append, hslash,
        List.map_cons, List.map_cons, ofNames, String.intercalate_cons_cons]
      rw [ofNames] at ih
      rw [ih, ofNames, List.map_cons]

theorem slashed_ofNames_of_plain {texts : List String}
    (hplain : ∀ text ∈ texts, '\\' ∉ text.toList) : slashed (ofNames texts) = ofNames texts := by
  rw [slashed_ofNames, List.map_congr_left fun text htext => slashed_eq_self (hplain text htext),
    List.map_id']

theorem safe?_ofNames (hne : names ≠ []) (hnames : ∀ text ∈ names, IsName text)
    (hplain : ∀ text ∈ names, '\\' ∉ text.toList) : safe? (ofNames names) = some names := by
  rw [safe?_eq_some_iff, slashed_ofNames_of_plain hplain, isAbsolute_ofNames hne hnames,
    pieces_ofNames_of_isName hne hnames]
  refine ⟨rfl, fun hdots => (hnames _ hdots).ne_dots rfl, ?_, hne⟩
  refine (List.filter_eq_self.mpr fun text htext => ?_).symm
  exact decide_eq_true ⟨(hnames text htext).ne_empty, (hnames text htext).ne_dot⟩

theorem backslash_notMem_of_safe? (h : safe? name = some names) :
    ∀ text ∈ names, '\\' ∉ text.toList := by
  obtain ⟨-, -, rfl, -⟩ := safe?_eq_some_iff.mp h
  intro text htext hback
  exact backslash_notMem_slashed name (mem_of_mem_pieces (List.mem_filter.mp htext).1 hback).1

/-- The path of some names neither is empty nor ends in a slash, so another name goes behind a
slash. -/
theorem join_ofNames {last : String} (hne : names ≠ []) (hnames : ∀ text ∈ names, IsName text)
    (hlast : IsName last) : join (ofNames names) last = ofNames (names ++ [last]) := by
  have hpieces := pieces_ofNames_of_isName hne hnames
  have hempty : "" ∉ names := fun h => (hnames "" h).ne_empty rfl
  have habsolute : isAbsolute last = false := by
    simpa [ofNames] using isAbsolute_ofNames (List.cons_ne_nil last []) (by simpa using hlast)
  have hstarts : ofNames names ≠ "" := by
    intro h
    rw [h] at hpieces
    exact hempty (hpieces ▸ List.mem_singleton.mpr rfl)
  have hends : (ofNames names).toList.getLast? ≠ some '/' := by
    intro h
    obtain ⟨chars, hchars⟩ := List.getLast?_eq_some_iff.mp h
    rw [pieces, hchars, split_concat_slash] at hpieces
    exact hempty (hpieces ▸ by simp)
  rw [join, if_neg (not_or.mpr ⟨by simp [habsolute], hstarts⟩), if_neg hends]
  simp only [ofNames, String.intercalate_append_of_ne_nil hne (List.cons_ne_nil last []),
    String.intercalate_singleton]

theorem foldl_join_eq (hnames : ∀ text ∈ names, IsName text) :
    names.foldl join "" = ofNames names := by
  induction names using List.reverseRecOn with
  | nil => rfl
  | append_singleton front last ih =>
    have hfront : ∀ text ∈ front, IsName text := fun text htext =>
      hnames text (List.mem_append_left _ htext)
    rw [List.foldl_concat, ih hfront]
    by_cases hne : front = []
    · subst hne
      exact (join_empty last).trans (by simp [ofNames])
    · exact join_ofNames hne hfront (hnames last (by simp))

end

end Path

namespace Disk

section
variable {disk : Disk} {here place : Place} {names : List String}

open ClassicZip.Path (IsName join ofNames pieces)

theorem follow_names (hnames : ∀ text ∈ names, IsName text)
    (h : disk.follow here names = .ok place) : place = here ++ names := by
  induction names generalizing here with
  | nil =>
    obtain rfl := Except.ok.inj h
    rw [List.append_nil]
  | cons text rest ih =>
    rw [List.forall_mem_cons] at hnames
    obtain ⟨hname, hrest⟩ := hnames
    obtain ⟨-, next, hstep, hnext⟩ := follow_cons_ok.mp h
    rw [step, if_neg (not_or.mpr ⟨hname.ne_empty, hname.ne_dot⟩), if_neg hname.ne_dots] at hstep
    split at hstep
    · cases hstep
    · obtain rfl := Except.ok.inj hstep
      rw [ih hrest hnext, List.append_assoc, List.singleton_append]

theorem trimmedPieces_eq {path last : String} {front : List String}
    (h : pieces path = front ++ [last]) (hlast : last ≠ "") : trimmedPieces path = pieces path := by
  rw [trimmedPieces, h]
  simp [hlast]

/-- What a path of names means behind another path lies below what that path names. -/
theorem resolveNew_join (hne : names ≠ []) (hnames : ∀ text ∈ names, IsName text) {base : String}
    (h : disk.resolveNew (join base (ofNames names)) = .ok place) :
    ∃ top, disk.follow (disk.startOf base) (pieces base) = .ok top ∧ place = top ++ names := by
  obtain ⟨-, hfollow⟩ := resolveNew_ok.mp h
  obtain ⟨above, hjoined, hbase⟩ : ∃ above, pieces (join base (ofNames names)) = above ++ names ∧
      (pieces base = above ∨ pieces base = above ++ [""]) := by
    by_cases hempty : base = ""
    · subst hempty
      exact ⟨[], by rw [Path.join_empty, Path.pieces_ofNames_of_isName hne hnames, List.nil_append],
        .inr rfl⟩
    · obtain ⟨first, rest, hjoined, hbase⟩ := Path.pieces_join hne hnames hempty
      exact ⟨first :: rest, hjoined, hbase⟩
  have htrimmed : trimmedPieces (join base (ofNames names)) = above ++ names := by
    rcases List.eq_nil_or_concat names with rfl | ⟨front, last, rfl⟩
    · exact absurd rfl hne
    · rw [List.concat_eq_append, ← List.append_assoc] at hjoined ⊢
      rw [trimmedPieces_eq hjoined (hnames last (by simp)).ne_empty, hjoined]
  rw [htrimmed, startOf, Path.isAbsolute_join hne hnames] at hfollow
  obtain ⟨top, habove, hbelow⟩ := follow_append_ok.mp hfollow
  refine ⟨top, ?_, follow_names hnames hbelow⟩
  rcases hbase with hbase | hbase
  · rw [hbase]
    exact habove
  · -- An empty piece stays where it is, which is a directory as names lead on from it.
    obtain ⟨first, rest, rfl⟩ := List.exists_cons_of_ne_nil hne
    obtain ⟨hnode, -⟩ := follow_cons_ok.mp hbelow
    rw [hbase]
    exact follow_append_ok.mpr
      ⟨top, habove, follow_cons_ok.mpr ⟨hnode, top, if_pos (.inl rfl), rfl⟩⟩

end

end Disk

namespace Path

/-- With backslashes read as slashes, a name is followed just when it does not start with a slash,
none of its parts leads up, and some part says something. It is followed by its parts that say
something, put one behind the other. Behind any output directory, whatever its path is, these are
the last components, and what they name on any disk lies below that directory by just these names.
Their path is followed by them again. -/
theorem safe?_exact (name : String) :
    ((safe? name).isSome = true ↔ (slashed name).toList.head? ≠ some '/' ∧
      ".." ∉ ((slashed name).toList.splitOn '/').map String.ofList ∧
      ∃ part ∈ ((slashed name).toList.splitOn '/').map String.ofList, part ≠ "" ∧ part ≠ ".") ∧
    ∀ names, safe? name = some names →
      names = ((((slashed name).toList.splitOn '/').map String.ofList).filter
        fun part => part ≠ "" ∧ part ≠ ".") ∧
      names ≠ [] ∧
      (∀ text ∈ names, IsName text) ∧
      names.foldl join "" = ofNames names ∧
      (∀ output, components (join output (ofNames names)) =
        components output ++ names.map Component.name) ∧
      (∀ (disk : Disk) (output : String) (place : Place),
        disk.resolveNew (join output (ofNames names)) = .ok place →
        ∃ top, disk.follow (disk.startOf output) (pieces output) = .ok top ∧
          place = top ++ names) ∧
      safe? (ofNames names) = some names := by
  simp only [← pieces_eq_splitOn]
  refine ⟨?_, fun names h => ?_⟩
  · rw [isSome_safe?_iff, isAbsolute, beq_eq_false_iff_ne]
  · have hnames := isName_of_safe? h
    have hne := ne_nil_of_safe? h
    exact ⟨(safe?_eq_some_iff.mp h).2.2.1, hne, hnames, foldl_join_eq hnames,
      components_join hne hnames, fun disk output place => Disk.resolveNew_join hne hnames,
      safe?_ofNames hne hnames (backslash_notMem_of_safe? h)⟩

/-- A name of another system goes below an output directory, whose own path may lead up. -/
theorem safe?_exact_backslashes :
    safe? "win\\.\\a.txt" = some ["win", "a.txt"] ∧ safe? "win\\..\\a.txt" = none ∧
    components (join "../out/" "win/a.txt") = [.up, .name "out", .name "win", .name "a.txt"] := by
  have hnames : safe? "win\\.\\a.txt" = some ["win", "a.txt"] := by decide +kernel
  obtain ⟨-, -, -, -, hbehind, -⟩ := (safe?_exact "win\\.\\a.txt").2 _ hnames
  have hclimbs : ¬(safe? "win\\..\\a.txt").isSome = true :=
    mt (safe?_exact "win\\..\\a.txt").1.mp (by decide +kernel)
  exact ⟨hnames, Option.not_isSome_iff_eq_none.mp hclimbs,
    (hbehind "../out/").trans (by decide +kernel)⟩

end Path

end ClassicZip
