import ParLib.MatrixOwnership

/-!
# Matrix objects that share a memory

The objects are numbered as they are constructed. A step is one call, and it
has no result where the call is undefined, so that a run without an error
never releases a row twice.
-/

namespace ParLib

set_option autoImplicit false

open Foundations Memory

structure Matrices where
  objects : List MatrixObject
  memory : Memory

namespace Matrices

inductive Action
  | construct
  | copy (src : Nat)
  | initializeArray (k : Nat) (size : UInt32)
  | clear (k : Nat)
  | assign (k src : Nat)
  | fromStream (k : Nat) (is : IStream) (stale : Nat → Nat → Int)

def start : Matrices := ⟨[], .empty⟩

def construct (s : Matrices) : Matrices := { s with objects := s.objects ++ [.new] }

/-- A call of a function of one object. -/
def call (s : Matrices) (k : Nat) (f : MatrixObject → Memory → Option (MatrixObject × Memory)) :
    Option Matrices := do
  let m ← s.objects[k]?
  let (m, mem) ← f m s.memory
  return ⟨s.objects.set k m, mem⟩

variable (junk : Nat → Nat → UInt8)

def assign (s : Matrices) (k src : Nat) : Option Matrices := do
  let matrix ← s.objects[src]?
  if k = src then return s
  else s.call k fun m mem => m.assign junk matrix mem

/-- The copy constructor assigns to the new object. -/
def step (s : Matrices) : Action → Option Matrices
  | .construct => some s.construct
  | .copy src =>
    if src < s.objects.length then s.construct.assign junk s.objects.length src else none
  | .initializeArray k size => s.call k fun m mem => m.initializeArray junk size mem
  | .clear k => s.call k fun m mem => (m.clear mem).map fun mem => (m, mem)
  | .assign k src => s.assign junk k src
  | .fromStream k is stale => s.call k fun m mem => m.fromStream junk stale is mem

/-- The objects of a call exist. -/
def Has (s : Matrices) : Action → Prop
  | .construct => True
  | .copy src => src < s.objects.length
  | .initializeArray k _ | .clear k | .fromStream k _ _ => k < s.objects.length
  | .assign k src => k < s.objects.length ∧ src < s.objects.length

/-- Every object owns what its size says, and no row has two owners. -/
structure OwnSizes (s : Matrices) : Prop where
  each : ∀ (k : Nat) m, s.objects[k]? = some m → s.memory.OwnsItsSize m
  apart : ∀ (k l : Nat) m matrix, s.objects[k]? = some m → s.objects[l]? = some matrix → k ≠ l →
    ∀ p ∈ s.memory.owned matrix, p ∉ s.memory.owned m

/-- The same size and the same entries. -/
def Equal (s : Matrices) (k l : Nat) : Prop :=
  ∃ m matrix, s.objects[k]? = some m ∧ s.objects[l]? = some matrix ∧ m.size = matrix.size ∧
    ∀ i j, s.memory.load m.array i j = s.memory.load matrix.array i j

/-- What `a = b` leaves. -/
def Copied (s : Matrices) : Action → Prop
  | .copy src => s.Equal (s.objects.length - 1) src
  | .assign k src => s.Equal k src
  | .construct | .initializeArray _ _ | .clear _ | .fromStream _ _ _ => True

/-- Every allocated row has an owner. -/
def NoLeak (s : Matrices) : Prop :=
  ∀ q, (s.memory.rows.read q).isSome = true →
    ∃ (k : Nat) (m : MatrixObject), s.objects[k]? = some m ∧ q ∈ s.memory.owned m

/-- `clear` and `operator=` are called where there is no row to release, and no size from a
stream is above that of the rows that it replaces. -/
def Careful (s : Matrices) : Action → Prop
  | .construct | .copy _ | .initializeArray _ _ => True
  | .clear k => ∀ m, s.objects[k]? = some m → m.size = 0
  | .assign k src => k = src ∨ ∀ m, s.objects[k]? = some m → m.size = 0
  | .fromStream k is _ => ∀ m, s.objects[k]? = some m →
    m.array = none ∨ (is.nextUInt32 m.size).1 ≤ m.size

/-- A size from a stream is that of the rows that it replaces. -/
def Thorough (s : Matrices) : Action → Prop
  | .fromStream k is _ => ∀ m, s.objects[k]? = some m →
    m.array = none ∨ (is.nextUInt32 m.size).1 = m.size
  | .construct | .copy _ | .initializeArray _ _ | .clear _ | .assign _ _ => True

/-- Every object is sound, and two have nothing in common. -/
structure Separate (s : Matrices) : Prop where
  sound : ∀ (k : Nat) m, s.objects[k]? = some m → s.memory.Sound m
  apart : ∀ (k l : Nat) m matrix, s.objects[k]? = some m → s.objects[l]? = some matrix → k ≠ l →
    s.memory.Apart m matrix

variable {junk} {s : Matrices} {k : Nat} {m m' : MatrixObject} {mem' : Memory}

theorem Separate.ownSizes (h : s.Separate) : s.OwnSizes where
  each k m hm := (h.sound k m hm).ownsItsSize
  apart k l m matrix hm hmatrix hne p hp := by
    rw [(h.sound l matrix hmatrix).owned_eq] at hp
    rw [(h.sound k m hm).owned_eq]
    exact (h.apart k l m matrix hm hmatrix hne).rows p hp

theorem separate_start : start.Separate where
  sound k m hm := by cases hm
  apart k l m matrix hm := by cases hm

theorem noLeak_start : start.NoLeak := by
  intro q hq
  cases hq

theorem objects_construct {m : MatrixObject} (h : s.construct.objects[k]? = some m) :
    s.objects[k]? = some m ∨ k = s.objects.length ∧ m = .new := by
  rw [construct, List.getElem?_append] at h
  split at h
  · exact .inl h
  · rename_i hle
    obtain ⟨hlt, rfl⟩ := List.getElem?_eq_some_iff.mp h
    rw [List.length_singleton] at hlt
    exact .inr ⟨by omega, by simp⟩

theorem objects_construct_of_some {m : MatrixObject} (h : s.objects[k]? = some m) :
    s.construct.objects[k]? = some m := by
  rw [construct, List.getElem?_append_left (List.getElem?_eq_some_iff.mp h).1, h]

theorem apart_new (mem : Memory) (m : MatrixObject) : mem.Apart m .new where
  rows p hp := by
    rw [ptrs_of_none rfl] at hp
    cases hp
  array a ha := by cases ha

theorem Separate.construct (h : s.Separate) : s.construct.Separate where
  sound k m hm := by
    cases objects_construct hm with
    | inl hold => exact h.sound k m hold
    | inr hnew => exact hnew.2 ▸ sound_new
  apart k l m matrix hm hmatrix hne := by
    cases objects_construct hm with
    | inl hold =>
      cases objects_construct hmatrix with
      | inl hold' => exact h.apart k l m matrix hold hold' hne
      | inr hnew => exact hnew.2 ▸ apart_new _ m
    | inr hnew => exact hnew.2 ▸ (apart_new _ matrix).symm

theorem NoLeak.construct (h : s.NoLeak) : s.construct.NoLeak := by
  intro q hq
  obtain ⟨k, m, hm, hmem⟩ := h q hq
  exact ⟨k, m, objects_construct_of_some hm, hmem⟩

theorem call_eq {f : MatrixObject → Memory → Option (MatrixObject × Memory)}
    (hm : s.objects[k]? = some m) (hf : f m s.memory = some (m', mem')) :
    s.call k f = some ⟨s.objects.set k m', mem'⟩ := by
  simp only [call, hm, hf, Option.bind_eq_bind, Option.bind_some, Option.pure_def]

theorem lt_of_call {f : MatrixObject → Memory → Option (MatrixObject × Memory)} {u : Matrices}
    (hcall : s.call k f = some u) : k < s.objects.length := by
  obtain ⟨m, hm, -⟩ := Option.bind_eq_some_iff.mp hcall
  exact (List.getElem?_eq_some_iff.mp hm).1

theorem call_eq_some {f : MatrixObject → Memory → Option (MatrixObject × Memory)} {u : Matrices}
    (hm : s.objects[k]? = some m) (hcall : s.call k f = some u) :
    ∃ m' mem', f m s.memory = some (m', mem') ∧ u = ⟨s.objects.set k m', mem'⟩ := by
  simp only [call, hm, Option.bind_eq_bind, Option.bind_some, Option.pure_def] at hcall
  obtain ⟨⟨m', mem'⟩, hf, hu⟩ := Option.bind_eq_some_iff.mp hcall
  exact ⟨m', mem', hf, (Option.some.inj hu).symm⟩

/-- What is changed in one object does not reach the others. -/
theorem Separate.other (h : s.Separate) (hm : s.objects[k]? = some m)
    (hreplaces : MatrixObject.Replaces s.memory m mem' m') {l : Nat} {matrix : MatrixObject}
    (hne : l ≠ k) (hmatrix : s.objects[l]? = some matrix) :
    mem'.Sound matrix ∧ mem'.ptrs matrix = s.memory.ptrs matrix ∧ mem'.Apart m' matrix := by
  have hapart := h.apart k l m matrix hm hmatrix hne.symm
  obtain ⟨hsound, hptrs, -⟩ := hreplaces.other (h.sound l matrix hmatrix) hapart
  exact ⟨hsound, hptrs, hreplaces.apart (h.sound l matrix hmatrix) hapart hptrs⟩

theorem Separate.set (h : s.Separate) (hm : s.objects[k]? = some m) (hsound : mem'.Sound m')
    (hreplaces : MatrixObject.Replaces s.memory m mem' m') :
    Separate ⟨s.objects.set k m', mem'⟩ := by
  constructor
  · intro l matrix hl
    cases getElem?_set_cases hl with
    | inl hself => exact hself.2 ▸ hsound
    | inr hold => exact (h.other hm hreplaces hold.1 hold.2).1
  · intro l l' matrix matrix' hl hl' hne
    cases getElem?_set_cases hl with
    | inl hself =>
      obtain ⟨rfl, rfl⟩ := hself
      cases getElem?_set_cases hl' with
      | inl hself' => exact absurd hself'.1.symm hne
      | inr hold' => exact (h.other hm hreplaces hold'.1 hold'.2).2.2
    | inr hold =>
      obtain ⟨-, hptrs, hapart⟩ := h.other hm hreplaces hold.1 hold.2
      cases getElem?_set_cases hl' with
      | inl hself' => exact hself'.2 ▸ hapart.symm
      | inr hold' =>
        obtain ⟨-, hptrs', -⟩ := h.other hm hreplaces hold'.1 hold'.2
        have hapart' := h.apart l l' matrix matrix' hold.2 hold'.2 hne
        constructor
        · rw [hptrs, hptrs']
          exact hapart'.rows
        · exact hapart'.array

theorem NoLeak.set (h : s.NoLeak) (hseparate : s.Separate) (hm : s.objects[k]? = some m)
    (hsound : mem'.Sound m') (hreplaces : MatrixObject.Replaces s.memory m mem' m')
    (hreleases : MatrixObject.Releases s.memory m mem' m') :
    NoLeak ⟨s.objects.set k m', mem'⟩ := by
  have hk := (List.getElem?_eq_some_iff.mp hm).1
  have hseparate' := hseparate.set hm hsound hreplaces
  intro q hq
  cases hreleases q hq with
  | inl hnew =>
    refine ⟨k, m', List.getElem?_set_self hk, ?_⟩
    rwa [hsound.owned_eq]
  | inr hold =>
    obtain ⟨l, matrix, hmatrix, hmem⟩ := h q hold.1
    rw [(hseparate.sound l matrix hmatrix).owned_eq] at hmem
    have hne : k ≠ l := by
      rintro rfl
      rw [hm] at hmatrix
      cases hmatrix
      exact hold.2 hmem
    have hmatrix' : (s.objects.set k m')[l]? = some matrix := by
      rw [List.getElem?_set_ne hne, hmatrix]
    refine ⟨l, matrix, hmatrix', ?_⟩
    rw [(hseparate'.sound l matrix hmatrix').owned_eq]
    rwa [(hseparate.other hm hreplaces hne.symm hmatrix).2.1]

theorem has_of_step {a : Action} {u : Matrices} (hstep : step junk s a = some u) : s.Has a := by
  cases a with
  | construct => trivial
  | copy src => exact (Option.ite_none_right_eq_some.mp hstep).1
  | initializeArray k size => exact lt_of_call hstep
  | clear k =>
    rw [step] at hstep
    exact lt_of_call hstep
  | assign k src =>
    obtain ⟨matrix, hmatrix, hassign⟩ := Option.bind_eq_some_iff.mp hstep
    have hsrc := (List.getElem?_eq_some_iff.mp hmatrix).1
    split at hassign
    · rename_i hself
      exact ⟨hself ▸ hsrc, hsrc⟩
    · exact ⟨lt_of_call hassign, hsrc⟩
  | fromStream k is stale => exact lt_of_call hstep

theorem Separate.exists_assign (h : s.Separate) (junk : Nat → Nat → UInt8) {src : Nat}
    {matrix : MatrixObject} (hm : s.objects[k]? = some m) (hmatrix : s.objects[src]? = some matrix)
    (hcareful : k = src ∨ m.size = 0) :
    ∃ u, s.assign junk k src = some u ∧ u.objects.length = s.objects.length ∧ u.Separate ∧
      u.Equal k src ∧ (s.NoLeak → u.NoLeak) := by
  cases eq_or_ne k src with
  | inl hself =>
    subst hself
    refine ⟨s, ?_, rfl, h, ⟨m, m, hm, hm, rfl, fun i j => rfl⟩, id⟩
    rw [assign, hm]
    exact if_pos rfl
  | inr hself =>
    have hk := (List.getElem?_eq_some_iff.mp hm).1
    obtain ⟨m', mem', heq, hsound, hreplaces, hreleases, hsize, hload⟩ :=
      MatrixObject.exists_assign junk (h.sound k m hm) (h.sound src matrix hmatrix)
        (h.apart k src m matrix hm hmatrix hself) (hcareful.resolve_left hself)
    refine ⟨_, ?_, List.length_set, h.set hm hsound hreplaces, ?_,
      fun hleak => hleak.set h hm hsound hreplaces hreleases⟩
    · rw [assign, hmatrix]
      exact (if_neg hself).trans (call_eq hm heq)
    · exact ⟨m', matrix, List.getElem?_set_self hk, by rwa [List.getElem?_set_ne hself],
        hsize, hload⟩

/-- A careful call has a result, and keeps the objects sound and apart. -/
theorem Separate.exists_step (h : s.Separate) (junk : Nat → Nat → UInt8) {a : Action}
    (hhas : s.Has a) (hcareful : s.Careful a) :
    ∃ u, step junk s a = some u ∧ u.Separate ∧ u.Copied a ∧
      (s.Thorough a → s.NoLeak → u.NoLeak) := by
  cases a with
  | construct => exact ⟨s.construct, rfl, h.construct, trivial, fun _ hleak => hleak.construct⟩
  | copy src =>
    have hsrc : src < s.objects.length := hhas
    have hmatrix := List.getElem?_eq_getElem hsrc
    have hnew : s.construct.objects[s.objects.length]? = some .new := List.getElem?_concat_length
    obtain ⟨u, heq, hlength, hseparate, hequal, hleak⟩ := h.construct.exists_assign junk hnew
      (objects_construct_of_some hmatrix) (.inr rfl)
    refine ⟨u, ?_, hseparate, ?_, fun _ hnoLeak => hleak hnoLeak.construct⟩
    · rw [step, if_pos hsrc, heq]
    · rw [Copied, hlength, Matrices.construct, List.length_append, List.length_singleton,
        Nat.add_sub_cancel]
      exact hequal
  | initializeArray k size =>
    have hm := List.getElem?_eq_getElem hhas
    obtain ⟨m', mem', heq, hsound, hreplaces, hreleases⟩ :=
      MatrixObject.exists_initializeArray junk (h.sound k _ hm) size
    exact ⟨_, call_eq hm heq, h.set hm hsound hreplaces, trivial,
      fun _ hleak => hleak.set h hm hsound hreplaces hreleases⟩
  | clear k =>
    have hk : k < s.objects.length := hhas
    have hm := List.getElem?_eq_getElem hk
    have heq : (s.objects[k].clear s.memory).map (fun mem => (s.objects[k], mem)) =
        some (s.objects[k], s.memory) := by
      rw [MatrixObject.clear_of_size_eq_zero (hcareful _ hm)]
      rfl
    have hsame : s.call k (fun m mem => (m.clear mem).map fun mem => (m, mem)) = some s := by
      rw [call_eq hm heq, List.set_getElem_self]
    exact ⟨s, hsame, h, trivial, fun _ hleak => hleak⟩
  | assign k src =>
    have hm := List.getElem?_eq_getElem hhas.1
    have hmatrix := List.getElem?_eq_getElem hhas.2
    obtain ⟨u, heq, -, hseparate, hequal, hleak⟩ := h.exists_assign junk hm hmatrix
      (hcareful.imp_right fun hempty => hempty _ hm)
    exact ⟨u, heq, hseparate, hequal, fun _ => hleak⟩
  | fromStream k is stale =>
    have hm := List.getElem?_eq_getElem hhas
    obtain ⟨m', mem₁, mem', heq, hinit, hfilled⟩ :=
      MatrixObject.exists_fromStream_filled junk stale is (h.sound k _ hm) (hcareful _ hm)
    have hsound := hinit.sound hfilled
    have hreplaces := hinit.replaces hfilled
    refine ⟨_, call_eq hm heq, h.set hm hsound hreplaces, trivial, ?_⟩
    intro hthorough hleak
    exact hleak.set h hm hsound hreplaces
      (hinit.releases (h.sound k _ hm) (hthorough _ hm) hfilled)

/-- The sizes are wrong after any other call that has a result. -/
theorem Separate.careful (h : s.Separate) {a : Action} {u : Matrices}
    (hstep : step junk s a = some u) (howns : u.OwnSizes) : s.Careful a := by
  cases a with
  | construct => trivial
  | copy src => trivial
  | initializeArray k size => trivial
  | clear k =>
    intro m hm
    rw [step] at hstep
    obtain ⟨m', mem', hf, rfl⟩ := call_eq_some hm hstep
    obtain ⟨mem'', hclear, heq⟩ := Option.map_eq_some_iff.mp hf
    cases heq
    have hk := (List.getElem?_eq_some_iff.mp hm).1
    by_contra hsize
    exact MatrixObject.not_ownsItsSize_clear (h.sound k m hm) hsize hclear
      (howns.each k m (List.getElem?_set_self hk))
  | assign k src =>
    refine or_iff_not_imp_left.mpr fun hself => ?_
    intro m hm
    obtain ⟨matrix, -, hcall⟩ := Option.bind_eq_some_iff.mp hstep
    rw [if_neg hself] at hcall
    obtain ⟨m', mem', hassign, rfl⟩ := call_eq_some hm hcall
    have hk := (List.getElem?_eq_some_iff.mp hm).1
    by_contra hsize
    exact MatrixObject.not_ownsItsSize_assign (h.sound k m hm) hsize hassign
      (howns.each k m' (List.getElem?_set_self hk))
  | fromStream k is stale =>
    intro m hm
    obtain ⟨m', mem', hload, -⟩ := call_eq_some hm hstep
    cases ha : m.array with
    | none => exact .inl rfl
    | some a =>
      right
      by_contra hsize
      rw [MatrixObject.fromStream_eq_none junk stale (h.sound k m hm) ha
        (UInt32.not_le.mp hsize)] at hload
      cases hload

/-- A row is leaked by a size from a stream that is smaller. -/
theorem Separate.thorough (h : s.Separate) {a : Action} {u : Matrices}
    (hstep : step junk s a = some u) (hcareful : s.Careful a) (hleak : u.NoLeak) :
    s.Thorough a := by
  cases a with
  | construct => trivial
  | copy src => trivial
  | initializeArray k size => trivial
  | clear k => trivial
  | assign k src => trivial
  | fromStream k is stale =>
    intro m hm
    have hk := (List.getElem?_eq_some_iff.mp hm).1
    refine (hcareful m hm).imp_right fun hle => ?_
    by_contra hne
    obtain ⟨m', mem₁, mem', heq, hinit, hfilled⟩ :=
      MatrixObject.exists_fromStream_filled junk stale is (h.sound k m hm) (hcareful m hm)
    obtain rfl : _ = u := Option.some.inj ((call_eq hm heq).symm.trans hstep)
    have hsound := hinit.sound hfilled
    have hreplaces := hinit.replaces hfilled
    obtain ⟨p, hp, hnew, hlive⟩ := hinit.leaves_row (h.sound k m hm)
      (UInt32.lt_of_le_of_ne hle hne) hfilled
    obtain ⟨l, matrix, hmatrix, hmem⟩ := hleak p hlive
    rw [((h.set hm hsound hreplaces).sound l matrix hmatrix).owned_eq] at hmem
    cases getElem?_set_cases hmatrix with
    | inl hself =>
      rw [hself.2] at hmem
      exact hnew hmem
    | inr hold =>
      rw [(h.other hm hreplaces hold.1 hold.2).2.1] at hmem
      exact (h.apart k l m matrix hm hold.2 hold.1.symm).rows p hmem hp

/-- The objects own what their sizes say after each call of a run exactly if every call is
careful, and no row is leaked exactly if every call is thorough as well. -/
theorem matrices_own_their_sizes_iff (junk : Nat → Nat → UInt8) (actions : List Action) :
    (Along (step junk) start
        (fun _ s a => s.Has a → ∃ u, step junk s a = some u ∧ u.OwnSizes ∧ u.Copied a) actions ↔
      Along (step junk) start (fun _ s a => s.Has a → s.Careful a) actions) ∧
    (Along (step junk) start
        (fun _ s a => s.Has a →
          ∃ u, step junk s a = some u ∧ u.OwnSizes ∧ u.Copied a ∧ u.NoLeak) actions ↔
      Along (step junk) start (fun _ s a => s.Has a → s.Careful a ∧ s.Thorough a) actions) := by
  constructor
  · refine along_iff_of_invariant (I := Separate) separate_start ?_ ?_ actions
    · intro s a h
      constructor
      · intro hworks hhas
        obtain ⟨u, hstep, howns, -⟩ := hworks hhas
        exact h.careful hstep howns
      · intro hcareful hhas
        obtain ⟨u, hstep, hseparate, hcopied, -⟩ := h.exists_step junk hhas (hcareful hhas)
        exact ⟨u, hstep, hseparate.ownSizes, hcopied⟩
    · intro s a u h hcareful hstep
      have hhas := has_of_step hstep
      obtain ⟨u', hstep', hseparate, -⟩ := h.exists_step junk hhas (hcareful hhas)
      rwa [Option.some.inj (hstep.symm.trans hstep')]
  · refine along_iff_of_invariant (I := fun s => s.Separate ∧ s.NoLeak)
      ⟨separate_start, noLeak_start⟩ ?_ ?_ actions
    · rintro s a ⟨h, hleak⟩
      constructor
      · intro hworks hhas
        obtain ⟨u, hstep, howns, -, hleak'⟩ := hworks hhas
        have hcareful := h.careful hstep howns
        exact ⟨hcareful, h.thorough hstep hcareful hleak'⟩
      · intro hcareful hhas
        obtain ⟨u, hstep, hseparate, hcopied, hkept⟩ := h.exists_step junk hhas (hcareful hhas).1
        exact ⟨u, hstep, hseparate.ownSizes, hcopied, hkept (hcareful hhas).2 hleak⟩
    · rintro s a u ⟨h, hleak⟩ hcareful hstep
      have hhas := has_of_step hstep
      obtain ⟨u', hstep', hseparate, -, hkept⟩ := h.exists_step junk hhas (hcareful hhas).1
      rw [Option.some.inj (hstep.symm.trans hstep')]
      exact ⟨hseparate, hkept (hcareful hhas).2 hleak⟩

/-- An assignment from one matrix of size 1 to another one. -/
def doubleRelease : List Action :=
  [.construct, .initializeArray 0 1, .construct, .initializeArray 1 1, .assign 0 1]

theorem assigned_matrix_is_released_twice :
    ¬ ∀ (junk : Nat → Nat → UInt8) (actions : List Action), Along (step junk) start
      (fun _ s a => s.Has a → ∃ u, step junk s a = some u ∧ u.OwnSizes ∧ u.Copied a) actions := by
  intro h
  let junk : Nat → Nat → UInt8 := fun _ _ => 0
  obtain ⟨s, hs⟩ : ∃ s, runActions (step junk) start (doubleRelease.take 4) = some s :=
    Option.isSome_iff_exists.mp (by decide)
  have hend : ∀ s ∈ runActions (step junk) start (doubleRelease.take 4),
      s.objects.length = 2 ∧ (step junk s (.assign 0 1)).isNone = true := by decide
  obtain ⟨hlength, hnone⟩ := hend s hs
  obtain ⟨u, hu, -⟩ := h junk doubleRelease (doubleRelease.take 4) (.assign 0 1) [] rfl s hs
    ⟨by omega, by omega⟩
  rw [hu] at hnone
  cases hnone

end Matrices

end ParLib
