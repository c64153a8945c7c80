import ClassicZip.Codec.Gathering

/-!
# Portions that a caller asks for

A caller that wants more asks for at least one byte, and for no more than it wants in all. So what
it gathers grows until it has what it wants, or nothing more comes.
-/

namespace ClassicZip.Codec.Gathering

/-- The buffer can take what the next portion asks for: unless the caller probes there is room. -/
structure Roomy (gathering : Gathering) : Prop where
  size_le : gathering.size ≤ gathering.capacity
  largest_pos : 0 < gathering.largest
  size_lt : gathering.probing = false → gathering.size < gathering.capacity

section
variable {gathering : Gathering} {count : Nat}

@[simp] theorem size_grow (gathering : Gathering) (count : Nat) :
    (gathering.grow count).size = gathering.size := by
  unfold grow
  split <;> rfl

@[simp] theorem wanted_grow (gathering : Gathering) (count : Nat) :
    (gathering.grow count).wanted = gathering.wanted := by
  unfold grow
  split <;> rfl

@[simp] theorem largest_grow (gathering : Gathering) (count : Nat) :
    (gathering.grow count).largest = gathering.largest := by
  unfold grow
  split <;> rfl

theorem capacity_le_grow (gathering : Gathering) (count : Nat) :
    gathering.capacity ≤ (gathering.grow count).capacity := by
  unfold grow
  split
  · exact Nat.le_refl _
  · dsimp only
    omega

theorem size_add_le_grow (h : gathering.size ≤ gathering.capacity) (count : Nat) :
    gathering.size + count ≤ (gathering.grow count).capacity := by
  unfold grow
  split
  · omega
  · dsimp only
    omega

@[simp] theorem size_after (gathering : Gathering) (count : Nat) :
    (gathering.after count).size = gathering.size + count := by
  unfold after
  extract_lets grown doubles gathered
  split
  · rfl
  · exact size_grow gathered _

@[simp] theorem wanted_after (gathering : Gathering) (count : Nat) :
    (gathering.after count).wanted = gathering.wanted := by
  unfold after
  extract_lets grown doubles gathered
  have hgrown : gathered.wanted = gathering.wanted := by
    show grown.wanted = gathering.wanted
    unfold grown
    split
    · exact wanted_grow gathering count
    · rfl
  split
  · exact hgrown
  · exact (wanted_grow gathered _).trans hgrown

theorem isFull_eq_false : gathering.isFull = false ↔ gathering.size < gathering.wanted := by
  simp [isFull]

theorem roomy_start (expected wanted : Nat) : (start expected wanted).Roomy where
  size_le := Nat.zero_le _
  largest_pos := Nat.succ_pos _
  size_lt := by
    intro hprobing
    exact Nat.lt_of_lt_of_le (Nat.succ_pos 31) (Nat.le_of_not_lt (of_decide_eq_false hprobing))

theorem portion_le (gathering : Gathering) :
    gathering.portion ≤ gathering.wanted - gathering.size :=
  Nat.min_le_right _ _

theorem Roomy.portion_pos (h : gathering.Roomy) (hopen : gathering.isFull = false) :
    0 < gathering.portion := by
  have hwanted := isFull_eq_false.mp hopen
  have hlargest := h.largest_pos
  rw [portion, room]
  split
  · rw [probeSize]
    omega
  · have hroom := h.size_lt (by simpa using ‹¬ gathering.probing = true›)
    omega

theorem Roomy.after (h : gathering.Roomy) (hcount : count ≤ gathering.portion) :
    (gathering.after count).Roomy := by
  have hle := h.size_le
  have hlargest := h.largest_pos
  have hfit : gathering.size + count ≤
      (if gathering.probing then gathering.grow count else gathering).capacity := by
    split
    · exact size_add_le_grow hle count
    · rename_i hprobing
      rw [portion, room, if_neg hprobing] at hcount
      omega
  unfold Gathering.after
  extract_lets grown doubles gathered
  have hsize : gathered.size ≤ gathered.capacity := hfit
  have hlarger : 0 < gathered.largest := by
    show 0 < if doubles = true then 2 * gathering.largest else gathering.largest
    split <;> omega
  split
  · exact ⟨hsize, hlarger, nofun⟩
  · refine ⟨?_, ?_, fun _ => ?_⟩
    · show (gathered.grow _).size ≤ (gathered.grow _).capacity
      rw [size_grow]
      exact Nat.le_trans hsize (capacity_le_grow _ _)
    · show 0 < (gathered.grow _).largest
      rw [largest_grow]
      exact hlarger
    · show (gathered.grow _).size < (gathered.grow _).capacity
      rw [size_grow]
      by_cases hexact : gathered.size = gathered.capacity
      · have hspare := size_add_le_grow hsize probeSize
        rw [if_pos hexact]
        exact Nat.lt_of_lt_of_le (Nat.lt_add_of_pos_right (by decide)) hspare
      · rw [if_neg hexact]
        exact Nat.lt_of_lt_of_le (Nat.lt_of_le_of_ne hsize hexact) (capacity_le_grow _ _)

-- ---------------------------------------------------------------------------
-- Portions of what is ready
-- ---------------------------------------------------------------------------

theorem wanted_drain (fuel ready : Nat) (gathering : Gathering) :
    (drain fuel ready gathering).wanted = gathering.wanted := by
  induction fuel generalizing ready gathering with
  | zero => rfl
  | succ fuel ih =>
    rw [drain]
    split
    · rfl
    · rw [ih, wanted_after]

theorem size_drain_le (fuel ready : Nat) (gathering : Gathering) :
    (drain fuel ready gathering).size ≤ gathering.size + ready := by
  induction fuel generalizing ready gathering with
  | zero => exact Nat.le_add_right _ _
  | succ fuel ih =>
    rw [drain]
    split
    · exact Nat.le_add_right _ _
    · refine Nat.le_trans (ih _ _) ?_
      rw [size_after]
      omega

theorem Roomy.drain (h : gathering.Roomy) (fuel ready : Nat) :
    (drain fuel ready gathering).Roomy := by
  induction fuel generalizing ready gathering with
  | zero => exact h
  | succ fuel ih =>
    rw [Gathering.drain]
    split
    · exact h
    · exact ih (h.after (Nat.min_le_right _ _)) _

/-- Unless the caller has all it wants, everything that was ready is gathered. -/
theorem Roomy.size_drain (h : gathering.Roomy) {fuel ready : Nat} (hfuel : ready ≤ fuel)
    (hopen : (Gathering.drain fuel ready gathering).isFull = false) :
    (Gathering.drain fuel ready gathering).size = gathering.size + ready := by
  induction fuel generalizing ready gathering with
  | zero =>
    obtain rfl := Nat.le_zero.mp hfuel
    rfl
  | succ fuel ih =>
    rw [Gathering.drain] at hopen ⊢
    split at hopen
    · rename_i hdone
      rw [if_pos hdone]
      rw [hopen, Bool.or_false, decide_eq_true_eq] at hdone
      rw [hdone, Nat.add_zero]
    · rename_i hgoes
      rw [if_neg hgoes]
      rw [Bool.not_eq_true, Bool.or_eq_false_iff, decide_eq_false_iff_not] at hgoes
      have hportion := h.portion_pos hgoes.2
      rw [ih (h.after (Nat.min_le_right _ _)) (by omega) hopen, size_after]
      omega

end

end ClassicZip.Codec.Gathering
