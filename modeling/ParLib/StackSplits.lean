import ParLib.Foundations.Strides
import ParLib.ParallelStack

/-!
# How stacks are split

The splits at the top take a stack apart at one place, which `giveTopQuarter`
misses for stacks of less than four items. The interleaved halving deals a
stack out by residue classes, and so does `getParallelStacks` however many
stacks it makes.
-/

namespace ParLib

set_option autoImplicit false

universe u

variable {T : Type u}

open Foundations ParallelStack

/-- The kept and the given items are the original ones, each part in its original order. -/
structure LosesNothing (data : List T) (r : ParallelStack T × ParallelStack T) : Prop where
  together : (r.1.data : Multiset T) + (r.2.data : Multiset T) = data
  kept : r.1.data.Sublist data
  given : r.2.data.Sublist data

theorem filterMap_getElem?_range (xs : List T) (k n : Nat) :
    ((List.range n).filterMap fun i => xs[i + k]?) = (xs.drop k).take n := by
  induction n with
  | zero => simp
  | succ n ih =>
    rw [List.range_succ, List.filterMap_append, ih, List.take_add_one, List.getElem?_drop]
    cases h : xs[k + n]? <;> simp [Nat.add_comm n k, h]

theorem losesNothing_take_drop (xs : List T) (k : Nat) :
    LosesNothing xs (⟨xs.take k⟩, ⟨xs.drop k⟩) where
  together := by rw [Multiset.coe_add, List.take_append_drop]
  kept := List.take_sublist k xs
  given := List.drop_sublist k xs

theorem losesNothing_drop_take (xs : List T) (k : Nat) :
    LosesNothing xs (⟨xs.drop k⟩, ⟨xs.take k⟩) where
  together := by rw [add_comm, Multiset.coe_add, List.take_append_drop]
  kept := List.drop_sublist k xs
  given := List.take_sublist k xs

theorem LosesNothing.length {data : List T} {r : ParallelStack T × ParallelStack T}
    (h : LosesNothing data r) : r.1.size + r.2.size = data.length := by
  have hcard := congrArg Multiset.card h.together
  rwa [Multiset.card_add, Multiset.coe_card, Multiset.coe_card, Multiset.coe_card] at hcard

theorem giveTopHalf_losesNothing (s : ParallelStack T) : LosesNothing s.data s.giveTopHalf := by
  have hdrop : (s.data.drop (s.size / 2)).take (s.size - s.size / 2) =
      s.data.drop (s.size / 2) := by
    apply List.take_of_length_le
    rw [List.length_drop, size]
  rw [giveTopHalf, filterMap_getElem?_range, hdrop]
  exact losesNothing_take_drop s.data (s.size / 2)

/-- With at least four items, and few enough for an `int`, the two parts meet. -/
theorem giveTopQuarter_of_le {s : ParallelStack T} (hfour : 4 ≤ s.size)
    (hint : s.size - s.size / 4 < 2 ^ 31) :
    s.giveTopQuarter = some (⟨s.data.drop (s.size / 4)⟩, ⟨s.data.take (s.size / 4)⟩) := by
  have hrest : (Int32.ofNat (s.size - s.size / 4)).toInt = (s.size - s.size / 4 : Nat) :=
    Int32.toInt_ofNat_of_lt hint
  have hne : ¬ ((s.size - s.size / 4 : Nat) : Int) % 2 ^ 64 = s.size := by omega
  have hpos : ¬ ((s.size - s.size / 4 : Nat) : Int) < 0 := by omega
  have hindex : ∀ i, i + s.size - (s.size - s.size / 4) = i + s.size / 4 := by omega
  have hdrop : (s.data.drop (s.size / 4)).take (s.size - s.size / 4) =
      s.data.drop (s.size / 4) := by
    apply List.take_of_length_le
    rw [List.length_drop, size]
  simp only [giveTopQuarter, hrest, hne, hpos, if_false, Int.toNat_natCast, hindex,
    filterMap_getElem?_range, hdrop]

theorem giveTopQuarter_cases {s : ParallelStack T} {r : ParallelStack T × ParallelStack T}
    (h : s.giveTopQuarter = some r) :
    ∃ rest wrapped : Int, wrapped = (Int32.ofNat (s.size - s.size / 4)).toInt ∧
      (wrapped % 2 ^ 64 = s.size → rest = wrapped - 1) ∧ rest ≤ wrapped ∧ 0 ≤ rest ∧
      r.1.size ≤ rest ∧ r.2.size = s.size / 4 := by
  refine ⟨if (Int32.ofNat (s.size - s.size / 4)).toInt % 2 ^ 64 = s.size then
    (Int32.ofNat (s.size - s.size / 4)).toInt - 1 else
    (Int32.ofNat (s.size - s.size / 4)).toInt, _, rfl, fun heq => if_pos heq, ?_, ?_⟩
  · split <;> omega
  · rw [giveTopQuarter] at h
    generalize (if (Int32.ofNat (s.size - s.size / 4)).toInt % 2 ^ 64 = s.size then
      (Int32.ofNat (s.size - s.size / 4)).toInt - 1 else
      (Int32.ofNat (s.size - s.size / 4)).toInt) = rest at h ⊢
    by_cases hneg : rest < 0
    · simp [hneg] at h
    · simp only [hneg, if_false, Option.some.injEq] at h
      have hkept := List.length_filterMap_le (fun i => s.data[i + s.size - rest.toNat]?)
        (List.range rest.toNat)
      rw [List.length_range] at hkept
      subst h
      refine ⟨by omega, ?_, ?_⟩
      · simp only [size]
        simp only [size] at hkept
        omega
      · simp only [size, List.length_take]
        omega

/-- The kept part is no longer than an `int` can say, and of less than four items one
is left behind. -/
theorem giveTopQuarter_size_le {s : ParallelStack T} {r : ParallelStack T × ParallelStack T}
    (h : s.giveTopQuarter = some r) :
    r.2.size = s.size / 4 ∧ r.1.size < 2 ^ 31 ∧ (s.size < 4 → r.1.size < s.size) := by
  obtain ⟨rest, wrapped, hwrapped, hspecial, hle, hpos, hkept, hgiven⟩ := giveTopQuarter_cases h
  have hint : wrapped < 2 ^ 31 := hwrapped ▸ Int32.toInt_lt _
  refine ⟨hgiven, by omega, ?_⟩
  intro hfew
  rw [Int32.toInt_ofNat_of_lt (by omega)] at hwrapped
  omega

theorem top_splits_lose_nothing_iff (s : ParallelStack T) :
    LosesNothing s.data s.giveTopHalf ∧
      ((∃ r, s.giveTopQuarter = some r ∧ LosesNothing s.data r) ↔
        4 ≤ s.size ∧ s.size - s.size / 4 < 2 ^ 31) := by
  refine ⟨giveTopHalf_losesNothing s, ?_⟩
  constructor
  · rintro ⟨r, hr, hlossless⟩
    obtain ⟨hgiven, hint, hfew⟩ := giveTopQuarter_size_le hr
    have hlen : r.1.size + r.2.size = s.size := hlossless.length
    omega
  · rintro ⟨hfour, hint⟩
    exact ⟨_, giveTopQuarter_of_le hfour hint, losesNothing_drop_take s.data (s.size / 4)⟩

/-- A stack of one item ends in two empty ones. -/
theorem giveTopQuarter_loses_one_item :
    ¬ ∀ s : ParallelStack Nat, LosesNothing s.data s.giveTopHalf ∧
      ∃ r, s.giveTopQuarter = some r ∧ LosesNothing s.data r := by
  intro h
  obtain ⟨-, r, hr, hlossless⟩ := h ⟨[7]⟩
  have hnothing : (⟨[7]⟩ : ParallelStack Nat).giveTopQuarter = some (⟨[]⟩, ⟨[]⟩) := by decide
  rw [hnothing] at hr
  cases hr
  exact absurd hlossless.length (by decide)

theorem getElem?_newDataB (data : List T) (t : Nat) : (newDataB data)[t]? = data[t * 2]? := by
  induction data using List.twoStepInduction generalizing t with
  | nil => simp
  | singleton a => cases t <;> simp [Nat.add_mul]
  | cons_cons a b data ih => cases t <;> simp [Nat.add_mul, ih]

theorem getElem?_newDataA (data : List T) (t : Nat) :
    (newDataA data)[t]? = data[t * 2 + 1]? := by
  induction data using List.twoStepInduction generalizing t with
  | nil => simp
  | singleton a => simp
  | cons_cons a b data ih => cases t <;> simp [Nat.add_mul, ih]

theorem newDataB_eq_stride (data : List T) : newDataB data = stride 2 0 data := by
  apply List.ext_getElem?
  intro t
  rw [getElem?_newDataB, getElem?_stride Nat.two_pos, Nat.zero_add]

theorem newDataA_eq_stride (data : List T) : newDataA data = stride 2 1 data := by
  apply List.ext_getElem?
  intro t
  rw [getElem?_newDataA, getElem?_stride Nat.one_lt_two, Nat.add_comm]

/-- The stacks of a round that began with `L` of them, when `j` have been halved. -/
def dealt (states : List T) (L j : Nat) : List (ParallelStack T) :=
  (List.range (L + j)).map fun i => ⟨stride (if i < j ∨ L ≤ i then 2 * L else L) i states⟩

@[simp]
theorem dealt_length (states : List T) (L j : Nat) : (dealt states L j).length = L + j := by
  simp [dealt]

theorem getElem?_dealt (states : List T) {L j i : Nat} (hi : i < L + j) :
    (dealt states L j)[i]? =
      some ⟨stride (if i < j ∨ L ≤ i then 2 * L else L) i states⟩ := by
  rw [dealt, List.getElem?_map, List.getElem?_range hi, Option.map_some]

/-- Halving the `j`-th stack sends one half of its residue class to the end of the list. -/
theorem halve_dealt (states : List T) {L j : Nat} (hj : j < L) :
    (dealt states L j).set j (giveInterleaved ⟨stride L j states⟩).1 ++
      [(giveInterleaved ⟨stride L j states⟩).2] = dealt states L (j + 1) := by
  have hkept : (giveInterleaved ⟨stride L j states⟩).1 = ⟨stride (2 * L) j states⟩ := by
    rw [giveInterleaved, newDataB_eq_stride, stride_stride hj Nat.two_pos, Nat.zero_mul,
      Nat.add_zero]
  have hgiven : (giveInterleaved ⟨stride L j states⟩).2 = ⟨stride (2 * L) (j + L) states⟩ := by
    rw [giveInterleaved, newDataA_eq_stride, stride_stride hj Nat.one_lt_two, Nat.one_mul]
  rw [hkept, hgiven]
  apply List.ext_getElem?
  intro i
  rcases lt_trichotomy i (L + j) with hi | hi | hi
  · rw [List.getElem?_append_left (by simpa using hi), List.getElem?_set,
      getElem?_dealt states hi, getElem?_dealt states (j := j + 1) (by omega)]
    by_cases hij : j = i
    · subst hij
      simp [hi]
    · have hiff : (i < j + 1 ∨ L ≤ i) ↔ (i < j ∨ L ≤ i) := by omega
      simp only [hij, if_false, hiff]
  · subst hi
    rw [List.getElem?_append_right (by simp), getElem?_dealt states (by omega)]
    simp [Nat.add_comm L j]
  · rw [List.getElem?_eq_none (by simp; omega), List.getElem?_eq_none (by simp; omega)]

theorem dealt_full (states : List T) (L : Nat) : dealt states L L = dealt states (2 * L) 0 := by
  apply List.ext_getElem?
  intro i
  by_cases hi : i < L + L
  · rw [getElem?_dealt states hi, getElem?_dealt states (by omega), if_pos (by omega),
      if_neg (by omega)]
  · rw [List.getElem?_eq_none (by simp; omega), List.getElem?_eq_none (by simp; omega)]

/-- A round halves one stack after the other, until there are `count` of them. -/
theorem divideLoop_dealt (states : List T) {count L : Nat} (todo j : Nat) (hj : j + todo ≤ L)
    (hcount : L + j < count) :
    divideLoop count j todo (dealt states L j) =
      if L + j + todo < count then (false, dealt states L (j + todo))
      else (true, dealt states L (count - L)) := by
  induction todo generalizing j with
  | zero => rw [divideLoop, Nat.add_zero, Nat.add_zero, if_pos hcount]
  | succ todo ih =>
    have hget := getElem?_dealt states (L := L) (j := j) (i := j) (by omega)
    rw [if_neg (by omega)] at hget
    simp only [divideLoop, hget, halve_dealt states (show j < L by omega), dealt_length]
    by_cases hlast : L + (j + 1) = count
    · rw [if_pos hlast, if_neg (by omega), ← hlast, Nat.add_sub_cancel_left]
    · rw [if_neg hlast, ih (j + 1) (by omega) (by omega)]
      have hassoc : j + 1 + todo = j + (todo + 1) := by omega
      have hassoc' : L + (j + 1) + todo = L + j + (todo + 1) := by omega
      rw [hassoc, hassoc']

/-- Each round doubles the stacks, and the last one stops in the middle. -/
theorem divideRounds_dealt (states : List T) {count k : Nat} (hk : 2 ^ k ≤ count)
    (hk' : count < 2 ^ (k + 1)) (rounds r : Nat) (hr : r ≤ k) (hfuel : count ≤ 2 ^ r + rounds) :
    divideRounds count rounds (dealt states (2 ^ r) 0) =
      dealt states (2 ^ k) (count - 2 ^ k) := by
  have hdone : ∀ r ≤ k, count = 2 ^ r → r = k := by
    intro r hr hcount
    apply Nat.le_antisymm hr
    exact (Nat.pow_le_pow_iff_right Nat.one_lt_two).mp (hcount ▸ hk)
  induction rounds generalizing r with
  | zero =>
    have hle : 2 ^ r ≤ 2 ^ k := Nat.pow_le_pow_right Nat.two_pos hr
    have hcount : count = 2 ^ r := by omega
    obtain rfl := hdone r hr hcount
    rw [divideRounds, hcount, Nat.sub_self]
  | succ rounds ih =>
    have hpos : 0 < 2 ^ r := Nat.two_pow_pos r
    have hdouble : 2 ^ (r + 1) = 2 * 2 ^ r := Nat.pow_succ'
    rw [divideRounds, dealt_length, Nat.add_zero]
    by_cases hcount : 2 ^ r < count
    · rw [if_pos ⟨by omega, hcount⟩, divideLoop_dealt states (2 ^ r) 0 (by omega) (by omega)]
      have hnext : 2 ^ r + 2 ^ r ≤ count → r + 1 ≤ k := by
        intro hle
        by_contra hgt
        obtain rfl : r = k := by omega
        omega
      by_cases hround : 2 ^ r + 0 + 2 ^ r < count
      · simp only [hround, if_true, Nat.zero_add, dealt_full]
        rw [← hdouble]
        exact ih (r + 1) (hnext (by omega)) (by omega)
      · simp only [hround, if_false]
        by_cases hlast : count = 2 ^ r + 2 ^ r
        · obtain rfl : r + 1 = k := hdone (r + 1) (hnext (by omega)) (by omega)
          rw [hdouble, hlast, Nat.add_sub_cancel, dealt_full, Nat.two_mul, Nat.sub_self]
        · have hle : 2 ^ k < 2 ^ (r + 1) := by omega
          obtain rfl : r = k := by
            have := (Nat.pow_lt_pow_iff_right Nat.one_lt_two).mp hle
            omega
          rfl
    · have hle : 2 ^ r ≤ 2 ^ k := Nat.pow_le_pow_right Nat.two_pos hr
      obtain rfl := hdone r hr (by omega)
      have hsub : count - 2 ^ r = 0 := by omega
      rw [if_neg (by omega), hsub]

/-- What the positions of the `i`-th of `count` stacks are congruent modulo, for a
`count` between `2 ^ k` and its double. -/
def shareModulus (count k i : Nat) : Nat :=
  if i < count - 2 ^ k ∨ 2 ^ k ≤ i then 2 ^ (k + 1) else 2 ^ k

theorem getParallelStacks_eq (states : List T) {count k : Nat} (hk : 2 ^ k ≤ count)
    (hk' : count < 2 ^ (k + 1)) :
    getParallelStacks states count =
      (List.range count).map fun i => ⟨stride (shareModulus count k i) i states⟩ := by
  have hstart : [⟨states⟩] = dealt states (2 ^ 0) 0 := by
    simp [dealt]
  have hcount : 2 ^ k + (count - 2 ^ k) = count := by omega
  rw [getParallelStacks, hstart, divideRounds_dealt states hk hk' count 0 k.zero_le (by omega),
    dealt, hcount]
  simp only [shareModulus, Nat.pow_succ']

theorem lt_shareModulus {count k i : Nat} (hk' : count < 2 ^ (k + 1)) (hi : i < count) :
    i < shareModulus count k i := by
  rw [shareModulus]
  split <;> omega

/-- The residue classes of the stacks partition all positions. -/
theorem existsUnique_share {count k : Nat} (hk : 2 ^ k ≤ count) (hk' : count < 2 ^ (k + 1))
    (p : Nat) :
    ∃! i, i < count ∧ p % shareModulus count k i = i % shareModulus count k i := by
  have hdouble : 2 ^ (k + 1) = 2 * 2 ^ k := Nat.pow_succ'
  have hlt : p % 2 ^ (k + 1) < 2 ^ (k + 1) := Nat.mod_lt p (Nat.two_pow_pos _)
  have hmod : p % 2 ^ k =
      if p % 2 ^ (k + 1) < 2 ^ k then p % 2 ^ (k + 1) else p % 2 ^ (k + 1) - 2 ^ k := by
    rw [← Nat.mod_mod_of_dvd p (Nat.pow_dvd_pow 2 (Nat.le_add_right k 1))]
    split
    · rw [Nat.mod_eq_of_lt ‹_›]
    · rw [Nat.mod_eq_sub_mod (by omega), Nat.mod_eq_of_lt (by omega)]
  have hclass : ∀ i < count, p % shareModulus count k i = i % shareModulus count k i ↔
      p % shareModulus count k i = i := by
    intro i hi
    rw [Nat.mod_eq_of_lt (lt_shareModulus hk' hi)]
  by_cases hnarrow : p % 2 ^ (k + 1) < count - 2 ^ k ∨
      (2 ^ k ≤ p % 2 ^ (k + 1) ∧ p % 2 ^ (k + 1) < count)
  · refine ⟨p % 2 ^ (k + 1), ⟨by omega, ?_⟩, ?_⟩
    · rw [hclass _ (by omega), shareModulus, if_pos (by omega)]
    · rintro i ⟨hi, hmem⟩
      rw [hclass i hi, shareModulus] at hmem
      split_ifs at hmem hmod <;> omega
  · refine ⟨p % 2 ^ k, ⟨?_, ?_⟩, ?_⟩
    · split_ifs at hmod <;> omega
    · rw [hclass _ (by split_ifs at hmod <;> omega), shareModulus, if_neg]
      split_ifs at hmod <;> omega
    · rintro i ⟨hi, hmem⟩
      rw [hclass i hi, shareModulus] at hmem
      split_ifs at hmem hmod <;> omega

theorem getParallelStacks_deals_out (states : List T) {count k : Nat} (hk : 2 ^ k ≤ count)
    (hk' : count < 2 ^ (k + 1)) :
    (getParallelStacks states count).length = count ∧
      (∀ i < count, (getParallelStacks states count)[i]? =
        some ⟨stride (shareModulus count k i) i states⟩) ∧
      (∀ p, ∃! i, i < count ∧ p % shareModulus count k i = i % shareModulus count k i) ∧
      contents (getParallelStacks states count) = states ∧
      (count ≤ states.length → ∀ s ∈ getParallelStacks states count, s.data ≠ []) := by
  rw [getParallelStacks_eq states hk hk']
  refine ⟨by simp, ?_, existsUnique_share hk hk', ?_, ?_⟩
  · intro i hi
    rw [List.getElem?_map, List.getElem?_range hi, Option.map_some]
  · rw [← getParallelStacks_eq states hk hk']
    exact getParallelStacks_contents states count
  · intro hlen s hs
    obtain ⟨i, hi, rfl⟩ := List.mem_map.mp hs
    have hi := List.mem_range.mp hi
    exact stride_ne_nil (lt_shareModulus hk' hi) (by omega)

/-- Five states for three nodes. -/
theorem getParallelStacks_deals_out_three :
    (2 ^ 1 ≤ 3 ∧ 3 < 2 ^ (1 + 1)) ∧
      (getParallelStacks [10, 11, 12, 13, 14] 3).length = 3 ∧
      (∀ i < 3, (getParallelStacks [10, 11, 12, 13, 14] 3)[i]? =
        some ⟨stride (shareModulus 3 1 i) i [10, 11, 12, 13, 14]⟩) ∧
      (∀ p, ∃! i, i < 3 ∧ p % shareModulus 3 1 i = i % shareModulus 3 1 i) ∧
      contents (getParallelStacks [10, 11, 12, 13, 14] 3) = ↑[10, 11, 12, 13, 14] ∧
      (3 ≤ [10, 11, 12, 13, 14].length →
        ∀ s ∈ getParallelStacks [10, 11, 12, 13, 14] 3, s.data ≠ []) :=
  ⟨by decide, getParallelStacks_deals_out [10, 11, 12, 13, 14] (by decide) (by decide)⟩

end ParLib
