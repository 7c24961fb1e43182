import ParLib.Election.NetworkManager

/-!
# Following the next id

Among nodes that all know each other every node goes on to the least greater
id. The greatest node should wrap around to the least one. The scan keeps the
greatest of the smaller ids for it, so it goes back to its neighbour, and the
two go on to each other for ever.
-/

namespace ParLib.Election

set_option autoImplicit false

namespace NetworkManager

/-- Every member's table holds exactly the other members, in whatever order. -/
def HoldOthers (members : Finset NetworkId) (nodes : NetworkId → NetworkManager) : Prop :=
  ∀ v ∈ members, (nodes v).networkId = v ∧
    ∀ k, k ∈ (nodes v).clientConnections ↔ k ∈ members ∧ k ≠ v

def next (nodes : NetworkId → NetworkManager) (v : NetworkId) : NetworkId :=
  (nodes v).getNextId (nodes v).networkId

def IsSuccessor (members : Finset NetworkId) (v w : NetworkId) : Prop :=
  w ∈ members ∧ ((v < w ∧ ∀ k ∈ members, v < k → w ≤ k) ∨
    (∀ k ∈ members, k ≤ v) ∧ ∀ k ∈ members, w ≤ k)

/-- Going on from any member meets every member once and then comes back. -/
def IsRing (members : Finset NetworkId) (next : NetworkId → NetworkId) : Prop :=
  ∀ v ∈ members, ((List.range members.card).map fun i => next^[i] v).Nodup ∧
    (∀ w, w ∈ ((List.range members.card).map fun i => next^[i] v) ↔ w ∈ members) ∧
    next^[members.card] v = v

section Members

variable {members : Finset NetworkId} {nodes : NetworkId → NetworkManager} {v : NetworkId}

/-- What the scan finds: the least greater member, else the greatest other one. -/
theorem next_spec (hmembers : 2 ≤ members.card) (hne : [] ∉ members)
    (hold : HoldOthers members nodes) (hv : v ∈ members) :
    next nodes v ∈ members ∧ next nodes v ≠ v ∧
      ((v < next nodes v ∧ ∀ k ∈ members, v < k → next nodes v ≤ k) ∨
        (∀ k ∈ members, k ≤ v) ∧ ∀ k ∈ members, k ≠ v → k ≤ next nodes v) := by
  obtain ⟨hid, htable⟩ := hold v hv
  have hspec := (nodes v).getNextId_spec v fun h => hne ((htable []).mp h).1
  have hnext : next nodes v = (nodes v).getNextId v := by rw [next, hid]
  rw [← hnext] at hspec
  rcases hspec with ⟨hmem, hlt, hleast⟩ | ⟨hnone, hsmaller⟩
  · refine ⟨((htable _).mp hmem).1, hlt.ne', .inl ⟨hlt, ?_⟩⟩
    intro k hk hvk
    exact hleast k ((htable k).mpr ⟨hk, hvk.ne'⟩) hvk
  · have hgreatest : ∀ k ∈ members, k ≤ v := by
      intro k hk
      by_contra hlt
      exact hnone k ((htable k).mpr ⟨hk, (not_le.mp hlt).ne'⟩) (not_le.mp hlt)
    rcases hsmaller with ⟨-, hnone'⟩ | ⟨hmem, hlt, hbest⟩
    · obtain ⟨k, hk, hkv⟩ := Finset.exists_mem_ne hmembers v
      exact absurd ((hgreatest k hk).lt_of_ne hkv) (hnone' k ((htable k).mpr ⟨hk, hkv⟩))
    · refine ⟨((htable _).mp hmem).1, hlt.ne, .inr ⟨hgreatest, ?_⟩⟩
      intro k hk hkv
      exact hbest k ((htable k).mpr ⟨hk, hkv⟩) ((hgreatest k hk).lt_of_ne hkv)

theorem pair_next_eq (htwo : members.card = 2) (hne : [] ∉ members)
    (hold : HoldOthers members nodes) (hv : v ∈ members) :
    ({v, next nodes v} : Finset NetworkId) = members := by
  obtain ⟨hmem, hother, -⟩ := next_spec htwo.ge hne hold hv
  apply Finset.eq_of_subset_of_card_le
  · rw [Finset.insert_subset_iff, Finset.singleton_subset_iff]
    exact ⟨hv, hmem⟩
  · rw [htwo, Finset.card_pair hother.symm]

theorem isSuccessor_next_iff (hmembers : 2 ≤ members.card) (hne : [] ∉ members)
    (hold : HoldOthers members nodes) (hv : v ∈ members) :
    IsSuccessor members v (next nodes v) ↔ (∃ k ∈ members, v < k) ∨ members.card = 2 := by
  obtain ⟨hmem, hother, ⟨hlt, hleast⟩ | ⟨hgreatest, hbest⟩⟩ := next_spec hmembers hne hold hv
  · exact iff_of_true ⟨hmem, .inl ⟨hlt, hleast⟩⟩ (.inl ⟨_, hmem, hlt⟩)
  · have hnone : ¬ ∃ k ∈ members, v < k := by
      rintro ⟨k, hk, hlt⟩
      exact absurd (hgreatest k hk) (not_le.mpr hlt)
    rw [or_iff_right hnone]
    constructor
    · rintro ⟨-, ⟨hlt, -⟩ | ⟨-, hleast⟩⟩
      · exact absurd (hgreatest _ hmem) (not_le.mpr hlt)
      · have hall : members ⊆ {v, next nodes v} := by
          intro k hk
          rw [Finset.mem_insert, Finset.mem_singleton, or_iff_not_imp_left]
          intro hkv
          exact le_antisymm (hbest k hk hkv) (hleast k hk)
        have hle := Finset.card_le_card hall
        rw [Finset.card_pair hother.symm] at hle
        omega
    · intro htwo
      refine ⟨hmem, .inr ⟨hgreatest, ?_⟩⟩
      intro k hk
      rw [← pair_next_eq htwo hne hold hv, Finset.mem_insert, Finset.mem_singleton] at hk
      rcases hk with rfl | rfl
      · exact hgreatest _ hmem
      · exact le_rfl

theorem isRing_next_of_pair (htwo : members.card = 2) (hne : [] ∉ members)
    (hold : HoldOthers members nodes) : IsRing members (next nodes) := by
  intro v hv
  obtain ⟨hmem, hother, -⟩ := next_spec htwo.ge hne hold hv
  obtain ⟨hmem', hother', -⟩ := next_spec htwo.ge hne hold hmem
  have hall := pair_next_eq htwo hne hold hv
  have hback : next nodes (next nodes v) = v := by
    rw [← hall, Finset.mem_insert, Finset.mem_singleton] at hmem'
    exact hmem'.resolve_right hother'
  have hwalk : ((List.range members.card).map fun i => (next nodes)^[i] v) =
      [v, next nodes v] := by
    rw [htwo]
    rfl
  rw [hwalk, htwo]
  refine ⟨by simpa using hother.symm, ?_, hback⟩
  intro w
  rw [← hall]
  simp

end Members

def fullMesh (ids : List NetworkId) (v : NetworkId) : NetworkManager :=
  { new v with
    clientConnections := (ids.filter (· ≠ v)).foldl (fun table k => table.insert k 0) ∅ }

theorem holdOthers_fullMesh (ids : List NetworkId) : HoldOthers ids.toFinset (fullMesh ids) := by
  have hinsert : ∀ (ks : List NetworkId) (table : AList fun _ : NetworkId => Nat) (k : NetworkId),
      k ∈ ks.foldl (fun table k => table.insert k 0) table ↔ k ∈ ks ∨ k ∈ table := by
    intro ks
    induction ks with
    | nil => simp
    | cons j ks ih =>
      intro table k
      rw [List.foldl_cons, ih, AList.mem_insert, List.mem_cons]
      tauto
  intro v _
  refine ⟨rfl, ?_⟩
  intro k
  rw [fullMesh, hinsert, List.mem_filter, List.mem_toFinset]
  simp

/-- The nodes go on as they should, and so in one ring, just when there are two of them. -/
theorem next_forms_ring_iff (members : Finset NetworkId) (nodes : NetworkId → NetworkManager)
    (hmembers : 2 ≤ members.card) (hne : [] ∉ members) (hold : HoldOthers members nodes) :
    (∀ v ∈ members, IsSuccessor members v (next nodes v) ↔
      (∃ k ∈ members, v < k) ∨ members.card = 2) ∧
    (((∀ v ∈ members, IsSuccessor members v (next nodes v)) ∧ IsRing members (next nodes)) ↔
      members.card = 2) := by
  have hnode : ∀ v ∈ members, IsSuccessor members v (next nodes v) ↔
      (∃ k ∈ members, v < k) ∨ members.card = 2 :=
    fun v hv => isSuccessor_next_iff hmembers hne hold hv
  refine ⟨hnode, ?_⟩
  constructor
  · rintro ⟨hall, -⟩
    have hnonempty : members.Nonempty := Finset.card_pos.mp (by omega)
    have hmax := members.max'_mem hnonempty
    refine ((hnode _ hmax).mp (hall _ hmax)).resolve_left ?_
    rintro ⟨k, hk, hlt⟩
    exact absurd (members.le_max' k hk) (not_le.mpr hlt)
  · intro htwo
    exact ⟨fun v hv => (hnode v hv).mpr (.inr htwo), isRing_next_of_pair htwo hne hold⟩

theorem next_forms_ring_iff_pair :
    (2 ≤ [idA, idB].toFinset.card ∧ [] ∉ [idA, idB].toFinset ∧
      HoldOthers [idA, idB].toFinset (fullMesh [idA, idB])) ∧
    (∀ v ∈ [idA, idB].toFinset,
      IsSuccessor [idA, idB].toFinset v (next (fullMesh [idA, idB]) v) ↔
        (∃ k ∈ [idA, idB].toFinset, v < k) ∨ [idA, idB].toFinset.card = 2) ∧
    (((∀ v ∈ [idA, idB].toFinset,
        IsSuccessor [idA, idB].toFinset v (next (fullMesh [idA, idB]) v)) ∧
      IsRing [idA, idB].toFinset (next (fullMesh [idA, idB]))) ↔
      [idA, idB].toFinset.card = 2) :=
  ⟨⟨by decide, by decide, holdOthers_fullMesh _⟩,
    next_forms_ring_iff _ _ (by decide) (by decide) (holdOthers_fullMesh _)⟩

theorem greatest_of_three_goes_back :
    ¬ ∀ (members : Finset NetworkId) (nodes : NetworkId → NetworkManager),
      2 ≤ members.card → [] ∉ members → HoldOthers members nodes →
        (∀ v ∈ members, IsSuccessor members v (next nodes v)) ∧ IsRing members (next nodes) := by
  intro h
  obtain ⟨hall, -⟩ := h [idA, idB, idC].toFinset (fullMesh [idA, idB, idC]) (by decide) (by decide)
    (holdOthers_fullMesh _)
  have hback : next (fullMesh [idA, idB, idC]) idC = idB := by decide
  obtain ⟨-, ⟨hlt, -⟩ | ⟨-, hleast⟩⟩ := hall idC (by decide)
  · rw [hback] at hlt
    exact absurd hlt (by decide)
  · rw [hback] at hleast
    exact absurd (hleast idA (by decide)) (by decide)

end NetworkManager

end ParLib.Election
