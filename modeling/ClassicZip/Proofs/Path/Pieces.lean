import Mathlib.Data.List.Basic
import ClassicZip.Path

/-!
# The pieces of a path

A path is cut at its slashes into pieces, and its components are what the pieces mean: an empty
piece in front is the root, two dots lead up, and all pieces but these, empty ones and single dots
are names. Names that are put behind a path are components behind those of the path.
-/

namespace ClassicZip.Path

-- ---------------------------------------------------------------------------
-- Cutting at slashes
-- ---------------------------------------------------------------------------

theorem split_eq_splitOn (text : List Char) : split text = text.splitOn '/' := by
  induction text with
  | nil => rfl
  | cons c rest ih =>
    rw [split, ih, List.splitOn_cons_eq_if_modifyHead]
    by_cases hslash : c = '/'
    · rw [if_pos hslash, if_pos (by simpa using hslash)]
    · rw [if_neg hslash, if_neg (by simpa using hslash)]
      cases hrest : rest.splitOn '/' with
      | nil => exact absurd hrest (List.splitOn_ne_nil _ _)
      | cons piece pieces => rfl

theorem split_ne_nil (text : List Char) : split text ≠ [] := by
  rw [split_eq_splitOn]
  exact List.splitOn_ne_nil _ _

theorem mem_of_mem_split {text piece : List Char} {c : Char} (h : piece ∈ split text)
    (hc : c ∈ piece) : c ∈ text ∧ c ≠ '/' := by
  induction text generalizing piece with
  | nil =>
    obtain rfl := List.mem_singleton.mp h
    cases hc
  | cons d rest ih =>
    rw [split] at h
    split at h
    · rcases List.mem_cons.mp h with rfl | hrest
      · cases hc
      · exact (ih hrest hc).imp_left (List.mem_cons_of_mem _)
    · rename_i hd
      cases hsplit : split rest with
      | nil => exact absurd hsplit (split_ne_nil rest)
      | cons first pieces =>
        rw [hsplit] at h ih
        rcases List.mem_cons.mp h with rfl | hrest
        · rcases List.mem_cons.mp hc with rfl | hc
          · exact ⟨List.mem_cons_self, hd⟩
          · exact (ih List.mem_cons_self hc).imp_left (List.mem_cons_of_mem _)
        · exact (ih (List.mem_cons_of_mem _ hrest) hc).imp_left (List.mem_cons_of_mem _)

theorem head_split_eq_nil_iff {text first : List Char} {rest : List (List Char)}
    (h : split text = first :: rest) : first = [] ↔ text = [] ∨ text.head? = some '/' := by
  cases text with
  | nil =>
    obtain ⟨rfl, -⟩ := List.cons.inj h
    simp
  | cons c more =>
    rw [split] at h
    split at h
    · rename_i hc
      obtain ⟨rfl, -⟩ := List.cons.inj h
      simp [hc]
    · rename_i hc
      cases hsplit : split more with
      | nil => exact absurd hsplit (split_ne_nil more)
      | cons piece pieces =>
        rw [hsplit] at h
        obtain ⟨rfl, -⟩ := List.cons.inj h
        simp [hc]

theorem split_concat_slash (text : List Char) : split (text ++ ['/']) = split text ++ [[]] := by
  simp only [split_eq_splitOn]
  exact List.splitOn_append_cons_self text []

theorem pieces_eq_splitOn (path : String) :
    pieces path = (path.toList.splitOn '/').map String.ofList := by
  rw [pieces, split_eq_splitOn]

theorem pieces_ne_nil (path : String) : pieces path ≠ [] := by
  rw [pieces, ne_eq, List.map_eq_nil_iff]
  exact split_ne_nil _

theorem pieces_append_slash (front back : String) :
    pieces (front ++ "/" ++ back) = pieces front ++ pieces back := by
  simp only [pieces_eq_splitOn, String.toList_append, String.reduceToList, List.append_assoc,
    List.cons_append, List.nil_append, List.splitOn_append_cons_self, List.map_append]

theorem pieces_eq_singleton {text : String} (h : '/' ∉ text.toList) : pieces text = [text] := by
  rw [pieces_eq_splitOn, List.splitOn_eq_singleton h, List.map_singleton, String.ofList_toList]

theorem mem_of_mem_pieces {path piece : String} {c : Char} (h : piece ∈ pieces path)
    (hc : c ∈ piece.toList) : c ∈ path.toList ∧ c ≠ '/' := by
  obtain ⟨chars, hchars, rfl⟩ := List.mem_map.mp h
  rw [String.toList_ofList] at hc
  exact mem_of_mem_split hchars hc

theorem slash_notMem_of_mem_pieces {path piece : String} (h : piece ∈ pieces path) :
    '/' ∉ piece.toList :=
  fun hslash => (mem_of_mem_pieces h hslash).2 rfl

/-- Texts that are joined by slashes are cut again where they were joined, and at their own
slashes. -/
theorem pieces_ofNames {texts : List String} (h : texts ≠ []) :
    pieces (ofNames texts) = texts.flatMap pieces := by
  induction texts with
  | nil => exact absurd rfl h
  | cons text rest ih =>
    cases rest with
    | nil => simp [ofNames]
    | cons next more =>
      rw [ofNames, String.intercalate_cons_cons, pieces_append_slash, List.flatMap_cons,
        ← ih (List.cons_ne_nil _ _), ofNames]

theorem pieces_ofNames_of_slash {texts : List String} (hne : texts ≠ [])
    (hslash : ∀ text ∈ texts, '/' ∉ text.toList) : pieces (ofNames texts) = texts := by
  rw [pieces_ofNames hne]
  calc texts.flatMap pieces = texts.flatMap fun text => [text] :=
        List.flatMap_congr fun text htext => pieces_eq_singleton (hslash text htext)
    _ = texts := List.flatMap_singleton' texts

theorem head_pieces_eq_empty_iff {path first : String} {rest : List String}
    (h : pieces path = first :: rest) : first = "" ↔ path = "" ∨ isAbsolute path = true := by
  obtain ⟨chars, others, hsplit, rfl, -⟩ := List.map_eq_cons_iff.mp h
  have hhead := head_split_eq_nil_iff hsplit
  simpa [isAbsolute, ← String.toList_eq_nil_iff] using hhead

-- ---------------------------------------------------------------------------
-- What the pieces mean
-- ---------------------------------------------------------------------------

structure IsName (text : String) : Prop where
  ne_empty : text ≠ ""
  ne_dot : text ≠ "."
  ne_dots : text ≠ ".."
  slash : '/' ∉ text.toList

theorem component?_of_isName {text : String} (h : IsName text) :
    component? text = some (.name text) := by
  rw [component?, if_neg (not_or.mpr ⟨h.ne_empty, h.ne_dot⟩), if_neg h.ne_dots]

theorem components_eq {path first : String} {rest : List String} (h : pieces path = first :: rest) :
    components path = (leading path first).toList ++ rest.filterMap component? := by
  rw [components, h]

/-- How a path starts: its first piece and what that means there. -/
inductive Starts (path : String) : String → List Component → Prop
  | nowhere : path = "" → Starts path "" []
  | root : isAbsolute path = true → Starts path "" [.root]
  | here : isAbsolute path = false → Starts path "." [.here]
  | up : isAbsolute path = false → Starts path ".." [.up]
  | name {first : String} : isAbsolute path = false → IsName first →
      Starts path first [.name first]

theorem exists_starts (path : String) : ∃ first rest lead, pieces path = first :: rest ∧
    components path = lead ++ rest.filterMap component? ∧ Starts path first lead := by
  obtain ⟨first, rest, hpieces⟩ := List.exists_cons_of_ne_nil (pieces_ne_nil path)
  refine ⟨first, rest, (leading path first).toList, hpieces, components_eq hpieces, ?_⟩
  have hhead := head_pieces_eq_empty_iff hpieces
  have hslash : '/' ∉ first.toList := slash_notMem_of_mem_pieces (hpieces ▸ List.mem_cons_self)
  by_cases hpath : path = ""
  · obtain rfl := hhead.mpr (.inl hpath)
    rw [leading, if_pos hpath]
    exact .nowhere hpath
  rw [or_iff_right hpath] at hhead
  rw [leading, if_neg hpath]
  by_cases hempty : first = ""
  · subst hempty
    exact .root (hhead.mp rfl)
  have habsolute : isAbsolute path = false := by simpa [hempty] using hhead
  rw [if_neg hempty]
  by_cases hdot : first = "."
  · subst hdot
    exact .here habsolute
  rw [if_neg hdot]
  by_cases hdots : first = ".."
  · subst hdots
    exact .up habsolute
  · have hname : IsName first := ⟨hempty, hdot, hdots, hslash⟩
    rw [component?_of_isName hname]
    exact .name habsolute hname

section
variable {path : String}

theorem root_mem_components_iff : .root ∈ components path ↔ isAbsolute path = true := by
  obtain ⟨first, rest, lead, -, hcomponents, hstarts⟩ := exists_starts path
  have hrest : Component.root ∉ rest.filterMap component? := by
    simp only [List.mem_filterMap, not_exists, not_and, component?]
    intro piece _
    split
    · simp
    · split <;> simp
  rw [hcomponents, List.mem_append, or_iff_left hrest]
  cases hstarts with
  | nowhere hpath => simp [hpath, isAbsolute]
  | root habsolute => simp [habsolute]
  | here habsolute => simp [habsolute]
  | up habsolute => simp [habsolute]
  | name habsolute _ => simp [habsolute]

theorem up_mem_components_iff : .up ∈ components path ↔ ".." ∈ pieces path := by
  obtain ⟨first, rest, lead, hpieces, hcomponents, hstarts⟩ := exists_starts path
  have hrest : Component.up ∈ rest.filterMap component? ↔ ".." ∈ rest := by
    simp only [List.mem_filterMap, component?]
    constructor
    · rintro ⟨piece, hpiece, hup⟩
      split at hup
      · cases hup
      · split at hup
        · rename_i hdots
          exact hdots ▸ hpiece
        · cases hup
    · exact fun h => ⟨"..", h, rfl⟩
  rw [hcomponents, hpieces, List.mem_append, List.mem_cons, hrest]
  refine or_congr_left ?_
  cases hstarts with
  | nowhere _ => decide
  | root _ => decide
  | here _ => decide
  | up _ => decide
  | name _ hname => simpa using hname.ne_dots.symm

/-- The names among the components are the pieces that are neither empty nor made of one or two
dots. -/
theorem names_components : (components path).filterMap Component.name? =
    (pieces path).filter fun piece => piece ≠ "" ∧ piece ≠ "." ∧ piece ≠ ".." := by
  obtain ⟨first, rest, lead, hpieces, hcomponents, hstarts⟩ := exists_starts path
  have hrest : (rest.filterMap component?).filterMap Component.name? =
      rest.filter fun piece => piece ≠ "" ∧ piece ≠ "." ∧ piece ≠ ".." := by
    rw [List.filterMap_filterMap, ← List.filterMap_eq_filter]
    refine List.filterMap_congr fun piece _ => ?_
    unfold component?
    split
    · rename_i h
      rcases h with rfl | rfl <;> rfl
    · rename_i h
      rw [not_or] at h
      split
      · rename_i hdots
        subst hdots
        rfl
      · rename_i hdots
        simp [Option.guard, h, hdots, Component.name?]
  rw [hcomponents, hpieces, List.filterMap_append, hrest, List.filter_cons]
  cases hstarts with
  | nowhere _ => rfl
  | root _ => rfl
  | here _ => rfl
  | up _ => rfl
  | name _ hname =>
    simp [hname.ne_empty, hname.ne_dot, hname.ne_dots, Component.name?]

example : components "/a//./b/.." = [.root, .name "a", .name "b", .up] := by decide

theorem isName_of_mem_components {text : String} (h : .name text ∈ components path) :
    IsName text := by
  have hmem : text ∈ (components path).filterMap Component.name? :=
    List.mem_filterMap.mpr ⟨_, h, rfl⟩
  rw [names_components, List.mem_filter, decide_eq_true_eq] at hmem
  obtain ⟨hpiece, hempty, hdot, hdots⟩ := hmem
  exact ⟨hempty, hdot, hdots, slash_notMem_of_mem_pieces hpiece⟩

end

-- ---------------------------------------------------------------------------
-- Names behind a path
-- ---------------------------------------------------------------------------

section
variable {names : List String}

theorem pieces_ofNames_of_isName (hne : names ≠ []) (hnames : ∀ text ∈ names, IsName text) :
    pieces (ofNames names) = names :=
  pieces_ofNames_of_slash hne fun text htext => (hnames text htext).slash

theorem filterMap_component?_of_isName (hnames : ∀ text ∈ names, IsName text) :
    names.filterMap component? = names.map Component.name := by
  rw [← List.filterMap_eq_map]
  exact List.filterMap_congr fun text htext => component?_of_isName (hnames text htext)

theorem isAbsolute_ofNames (hne : names ≠ []) (hnames : ∀ text ∈ names, IsName text) :
    isAbsolute (ofNames names) = false := by
  obtain ⟨first, rest, rfl⟩ := List.exists_cons_of_ne_nil hne
  have hhead := head_pieces_eq_empty_iff (pieces_ofNames_of_isName hne hnames)
  rw [iff_false_left (hnames first List.mem_cons_self).ne_empty, not_or] at hhead
  exact Bool.eq_false_iff.mpr hhead.2

theorem components_ofNames (hne : names ≠ []) (hnames : ∀ text ∈ names, IsName text) :
    components (ofNames names) = names.map Component.name := by
  obtain ⟨first, rest, lead, hpieces, hcomponents, hstarts⟩ := exists_starts (ofNames names)
  rw [pieces_ofNames_of_isName hne hnames] at hpieces
  subst hpieces
  rw [List.forall_mem_cons] at hnames
  rw [hcomponents, filterMap_component?_of_isName hnames.2]
  cases hstarts with
  | nowhere _ => exact absurd rfl hnames.1.ne_empty
  | root _ => exact absurd rfl hnames.1.ne_empty
  | here _ => exact absurd rfl hnames.1.ne_dot
  | up _ => exact absurd rfl hnames.1.ne_dots
  | name _ _ => rfl

theorem join_empty (path : String) : join "" path = path := if_pos (.inr rfl)

/-- Names that are put behind a path are its last pieces. An empty piece behind a slash at its end
gives way to them. -/
theorem pieces_join (hne : names ≠ []) (hnames : ∀ text ∈ names, IsName text) {base : String}
    (hbase : base ≠ "") : ∃ first rest,
      pieces (join base (ofNames names)) = first :: (rest ++ names) ∧
        (pieces base = first :: rest ∨ pieces base = first :: (rest ++ [""])) := by
  have hpieces := pieces_ofNames_of_isName hne hnames
  rw [join, if_neg (not_or.mpr ⟨by simp [isAbsolute_ofNames hne hnames], hbase⟩)]
  split
  · rename_i hslash
    obtain ⟨chars, hchars⟩ := List.getLast?_eq_some_iff.mp hslash
    obtain ⟨first, rest, hfront⟩ := List.exists_cons_of_ne_nil (pieces_ne_nil (String.ofList chars))
    have hcut : base = String.ofList chars ++ "/" ++ "" := by
      rw [← String.toList_inj, hchars]
      simp
    refine ⟨first, rest, ?_, .inr ?_⟩
    · rw [hcut, String.append_empty, pieces_append_slash, hpieces, hfront, List.cons_append]
    · rw [hcut, pieces_append_slash, hfront]
      rfl
  · obtain ⟨first, rest, hfront⟩ := List.exists_cons_of_ne_nil (pieces_ne_nil base)
    exact ⟨first, rest, by rw [pieces_append_slash, hpieces, hfront, List.cons_append],
      .inl hfront⟩

theorem isAbsolute_join (hne : names ≠ []) (hnames : ∀ text ∈ names, IsName text) (base : String) :
    isAbsolute (join base (ofNames names)) = isAbsolute base := by
  have habsolute := isAbsolute_ofNames hne hnames
  by_cases hempty : base = ""
  · rw [hempty, join_empty, habsolute]
    rfl
  · obtain ⟨c, rest, hbase⟩ := List.exists_cons_of_ne_nil (mt String.toList_eq_nil_iff.mp hempty)
    rw [join, if_neg (not_or.mpr ⟨by simp [habsolute], hempty⟩)]
    split <;> simp [isAbsolute, hbase]

theorem components_join (hne : names ≠ []) (hnames : ∀ text ∈ names, IsName text) (base : String) :
    components (join base (ofNames names)) = components base ++ names.map Component.name := by
  by_cases hempty : base = ""
  · subst hempty
    rw [join_empty, components_ofNames hne hnames]
    rfl
  obtain ⟨first, rest, hjoined, hbase⟩ := pieces_join hne hnames hempty
  have hstart : join base (ofNames names) ≠ "" := by
    intro h
    rw [h] at hjoined
    obtain ⟨-, hrest⟩ := List.cons.inj (show [""] = first :: (rest ++ names) from hjoined)
    exact hne (List.append_eq_nil_iff.mp hrest.symm).2
  have hleading : leading (join base (ofNames names)) first = leading base first := by
    rw [leading, leading, if_neg hstart, if_neg hempty]
  have hmeans : components base = (leading base first).toList ++ rest.filterMap component? := by
    rcases hbase with hbase | hbase
    · exact components_eq hbase
    · rw [components_eq hbase, List.filterMap_append]
      simp [component?]
  rw [components_eq hjoined, List.filterMap_append, hleading, hmeans,
    filterMap_component?_of_isName hnames, List.append_assoc]

end

end ClassicZip.Path
