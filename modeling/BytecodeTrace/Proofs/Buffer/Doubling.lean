/-
# The doubling policy

How often a buffer grows depends only on how many items it comes to hold: the first growth gives it
eight places, and every other one doubles them.  `growths` counts them, `levelCapacity` is the
capacity behind a number of growths, and `growthRecords` is what is reported on the way.

* `growths_eq_iff`: a buffer grows no more often than it has to;
* `policyCapacity_eq`: the capacity of the policy, up to the greatest word;
* `policyGrowths_eq`: the growths that appends to an empty buffer report;
* `Grown.policyGrowths_append`: what one more append reports.
-/
import BytecodeTrace.Proofs.Buffer
import Mathlib.Data.Nat.Find
import Mathlib.Order.Bounds.Defs

namespace BytecodeTrace

/-! ## 1. Growths and capacities -/

theorem exists_le_doubled (n : Nat) : ∃ k, n ≤ leastCapacity * 2 ^ k := by
  refine ⟨n, ?_⟩
  have hlt : n < 2 ^ n := Nat.lt_two_pow_self
  rw [leastCapacity]
  omega

/-- The number of doublings that take eight places to `n` or more. -/
def doublings (n : Nat) : Nat := Nat.find (exists_le_doubled n)

/-- The number of growths that `n` items need: one for the first eight places, and the doublings. -/
def growths : Nat → Nat
  | 0 => 0
  | n + 1 => doublings (n + 1) + 1

/-- The capacity behind a number of growths. -/
def levelCapacity : Nat → Nat
  | 0 => 0
  | k + 1 => leastCapacity * 2 ^ k

theorem levelCapacity_succ_pos (l : Nat) : 0 < levelCapacity (l + 1) :=
  Nat.mul_pos (by decide) (Nat.two_pow_pos l)

/-- Every growth after the first doubles the capacity. -/
theorem levelCapacity_succ {l : Nat} (h : 0 < l) : levelCapacity (l + 1) = 2 * levelCapacity l := by
  cases l with
  | zero => cases h
  | succ k =>
    rw [levelCapacity, levelCapacity, Nat.pow_succ, ← Nat.mul_assoc, Nat.mul_comm]

theorem levelCapacity_le {l m : Nat} (h : l ≤ m) : levelCapacity l ≤ levelCapacity m := by
  cases l with
  | zero => exact Nat.zero_le _
  | succ l =>
    cases m with
    | zero => cases h
    | succ m =>
      have hpow : 2 ^ l ≤ 2 ^ m := Nat.pow_le_pow_right (by decide) (Nat.le_of_succ_le_succ h)
      exact Nat.mul_le_mul_left _ hpow

/-- The growths make enough room. -/
theorem le_levelCapacity_growths (n : Nat) : n ≤ levelCapacity (growths n) := by
  cases n with
  | zero => exact Nat.zero_le _
  | succ n => exact Nat.find_spec (exists_le_doubled (n + 1))

/-- Fewer growths do not. -/
theorem levelCapacity_lt {l n : Nat} (h : l < growths n) : levelCapacity l < n := by
  cases n with
  | zero => cases h
  | succ n =>
    cases l with
    | zero => exact Nat.succ_pos n
    | succ l =>
      have hfew : l < doublings (n + 1) := Nat.lt_of_succ_lt_succ h
      exact Nat.not_le.mp (Nat.find_min (exists_le_doubled (n + 1)) hfew)

/-- **No more growths than needed.** -/
theorem growths_eq_iff {n l : Nat} :
    growths n = l ↔ n ≤ levelCapacity l ∧ ∀ k < l, levelCapacity k < n := by
  constructor
  · rintro rfl
    exact ⟨le_levelCapacity_growths n, fun k => levelCapacity_lt⟩
  · rintro ⟨hle, hlt⟩
    refine Nat.le_antisymm ?_ ?_
    · by_contra hgt
      exact absurd (levelCapacity_lt (Nat.not_le.mp hgt)) (Nat.not_lt.mpr hle)
    · by_contra hgt
      exact absurd (hlt _ (Nat.not_le.mp hgt)) (Nat.not_lt.mpr (le_levelCapacity_growths n))

/-- More items need no fewer growths. -/
theorem growths_le {m n : Nat} (h : m ≤ n) : growths m ≤ growths n := by
  by_contra hgt
  have hlt := levelCapacity_lt (Nat.not_le.mp hgt)
  have hle := le_levelCapacity_growths n
  omega

/-- One more item needs a growth if all places are taken. -/
theorem growths_succ_of_eq {n : Nat} (h : levelCapacity (growths n) = n) :
    growths (n + 1) = growths n + 1 := by
  refine growths_eq_iff.mpr ⟨?_, ?_⟩
  · rcases Nat.eq_zero_or_pos (growths n) with hzero | hpos
    · rw [hzero] at h ⊢
      obtain rfl : n = 0 := h.symm
      exact levelCapacity_succ_pos 0
    · have hdouble := levelCapacity_succ hpos
      have hnonneg : 0 < levelCapacity (growths n + 1) := levelCapacity_succ_pos _
      omega
  · intro k hk
    have hle := levelCapacity_le (Nat.le_of_lt_succ hk)
    omega

/-- Otherwise it needs none. -/
theorem growths_succ_of_lt {n : Nat} (h : n < levelCapacity (growths n)) :
    growths (n + 1) = growths n := by
  refine growths_eq_iff.mpr ⟨h, ?_⟩
  intro k hk
  exact Nat.lt_succ_of_lt (levelCapacity_lt hk)

/-- **Where there are items, the capacity is the least that the policy has for them.** -/
theorem isLeast_levelCapacity {n : Nat} (h : 0 < n) :
    IsLeast {c | (∃ k, c = 8 * 2 ^ k) ∧ n ≤ c} (levelCapacity (growths n)) := by
  obtain ⟨m, rfl⟩ := Nat.exists_eq_add_one_of_ne_zero (Nat.ne_of_gt h)
  refine ⟨⟨⟨doublings (m + 1), rfl⟩, le_levelCapacity_growths _⟩, ?_⟩
  rintro c ⟨⟨k, rfl⟩, hle⟩
  have hk : doublings (m + 1) ≤ k := Nat.find_min' (exists_le_doubled (m + 1)) hle
  exact levelCapacity_le (Nat.succ_le_succ hk)

/-! ## 2. The capacity of the policy -/

/-- The capacity that is reached by a number of growths, as far as it is a word. -/
def cappedCapacity (l : Nat) : Nat := min (levelCapacity l) greatestCapacity

theorem growCapacity_cappedCapacity (l : Nat) :
    growCapacity (cappedCapacity l) = cappedCapacity (l + 1) := by
  have hgreat : leastCapacity ≤ greatestCapacity := by decide
  rcases Nat.eq_zero_or_pos l with rfl | hpos
  · rfl
  · have hdouble := levelCapacity_succ hpos
    have hleast : leastCapacity ≤ levelCapacity l := levelCapacity_le (l := 1) hpos
    have hnot : ¬ cappedCapacity l < leastCapacity := by
      rw [cappedCapacity]
      omega
    rw [growCapacity, if_neg hnot, cappedCapacity, cappedCapacity, hdouble]
    omega

/-- **The capacity of the policy**, for as many items as a word can count. -/
theorem policyCapacity_eq {n : Nat} (h : n ≤ greatestCapacity) :
    policyCapacity n = cappedCapacity (growths n) := by
  induction n with
  | zero => rfl
  | succ n ih =>
    have hcapacity := ih (Nat.le_of_succ_le h)
    have hroom := le_levelCapacity_growths n
    rw [policyCapacity, hcapacity]
    split
    · rename_i hfull
      -- a full buffer is below the greatest word, so its capacity is that of its level
      have heq : levelCapacity (growths n) = n := by
        rw [cappedCapacity] at hfull
        omega
      rw [growths_succ_of_eq heq, growCapacity_cappedCapacity]
    · rename_i hfree
      have hlt : n < levelCapacity (growths n) := by
        rw [cappedCapacity] at hfree
        omega
      rw [growths_succ_of_lt hlt]

/-- Up to `2 ^ 63` items the capacity is that of the level. -/
theorem cappedCapacity_eq {n l : Nat} (h : n ≤ 2 ^ 63) (hl : l ≤ growths n) :
    cappedCapacity l = levelCapacity l := by
  have hlevel : growths n ≤ 61 := by
    by_contra hgt
    have hlt : levelCapacity 61 < n := levelCapacity_lt (Nat.not_le.mp hgt)
    have htop : levelCapacity 61 = 2 ^ 63 := rfl
    omega
  have hle : levelCapacity l ≤ levelCapacity 61 := levelCapacity_le (Nat.le_trans hl hlevel)
  have htop : levelCapacity 61 ≤ greatestCapacity := by decide
  exact Nat.min_eq_left (Nat.le_trans hle htop)

/-! ## 3. What is reported -/

/-- The report of the growth that follows `l` growths. -/
def growthRecord (l : Nat) : Event := .bufferGrew (cappedCapacity l) (cappedCapacity (l + 1))

/-- The reports of all growths from `l` growths to `m`. -/
def growthRecords (l m : Nat) : List Event := (List.range' l (m - l)).map growthRecord

@[simp] theorem length_growthRecords (l m : Nat) : (growthRecords l m).length = m - l := by
  simp [growthRecords]

theorem growthRecords_succ (l : Nat) : growthRecords l (l + 1) = [growthRecord l] := by
  simp [growthRecords]

/-- Growths one after the other. -/
theorem growthRecords_append {k l m : Nat} (hkl : k ≤ l) (hlm : l ≤ m) :
    growthRecords k l ++ growthRecords l m = growthRecords k m := by
  have hstart : l = k + 1 * (l - k) := by omega
  have hlength : m - k = l - k + (m - l) := by omega
  rw [growthRecords, growthRecords, growthRecords, ← List.map_append, hlength,
    ← List.range'_append, ← hstart]

/-- What `n` appends to an empty buffer report. -/
def policyGrowths : Nat → List Event
  | 0 => []
  | n + 1 =>
    policyGrowths n ++
      if policyCapacity n < n + 1 then
        [.bufferGrew (policyCapacity n) (growCapacity (policyCapacity n))]
      else []

/-- **The growths that are reported are those that the items need**, in order. -/
theorem policyGrowths_eq {n : Nat} (h : n ≤ greatestCapacity) :
    policyGrowths n = growthRecords 0 (growths n) := by
  induction n with
  | zero => rfl
  | succ n ih =>
    have hn : n ≤ greatestCapacity := Nat.le_of_succ_le h
    have hroom := le_levelCapacity_growths n
    have hcapacity :
        cappedCapacity (growths n) = min (levelCapacity (growths n)) greatestCapacity := rfl
    rw [policyGrowths, ih hn, policyCapacity_eq hn]
    split
    · rename_i hfull
      have heq : levelCapacity (growths n) = n := by omega
      rw [growths_succ_of_eq heq, growCapacity_cappedCapacity,
        ← growthRecords_append (Nat.zero_le _) (Nat.le_succ _), growthRecords_succ]
      rfl
    · rename_i hfree
      have hlt : n < levelCapacity (growths n) := by omega
      rw [growths_succ_of_lt hlt, List.append_nil]

namespace Buffer

variable {α : Type} {b : Buffer α}

/-- **One more append** reports the growth that one more item needs. -/
theorem Grown.policyGrowths_append (h : Grown b) (x : α) :
    policyGrowths b.size ++ (b.append x).events = policyGrowths (b.append x).state.size := by
  have hsize : (b.append x).state.size = b.size + 1 := by simp [size]
  rw [hsize, policyGrowths, events_append, h]

end Buffer
end BytecodeTrace
