import ParLib.NetworkId
import ParLib.MaximumCut

/-!
# Assignment tables

Which states each client is to explore. `GetAssignment` hands out a reference
and creates a missing entry: `getAssignment` is the value it refers to,
`touch` the table it leaves, `setAssignment` a write through the reference.
-/

namespace ParLib.Job

set_option autoImplicit false

structure StackAssignment where
  assignments : AList fun _ : NetworkId => List Path

namespace StackAssignment

def empty : StackAssignment := ⟨∅⟩

def find? (a : StackAssignment) (client : NetworkId) : Option (List Path) :=
  a.assignments.lookup client

def getAssignment (a : StackAssignment) (client : NetworkId) : List Path :=
  (a.find? client).getD []

def setAssignment (a : StackAssignment) (client : NetworkId) (states : List Path) :
    StackAssignment := ⟨a.assignments.insert client states⟩

def touch (a : StackAssignment) (client : NetworkId) : StackAssignment :=
  match a.find? client with
  | none => a.setAssignment client []
  | some _ => a

def getClients (a : StackAssignment) : List NetworkId := a.assignments.keys

/-- The entries of `assign` overwrite those of `a`. -/
def update (a assign : StackAssignment) : StackAssignment :=
  ⟨assign.assignments ∪ a.assignments⟩

def remove (a : StackAssignment) (client : NetworkId) : StackAssignment :=
  ⟨a.assignments.erase client⟩

@[simp]
theorem find?_empty (k : NetworkId) : empty.find? k = none := rfl

theorem mem_getClients {a : StackAssignment} {k : NetworkId} :
    k ∈ a.getClients ↔ (a.find? k).isSome = true := by
  rw [find?, AList.lookup_isSome]
  rfl

theorem getAssignment_of_not_mem {a : StackAssignment} {k : NetworkId} (h : k ∉ a.getClients) :
    a.getAssignment k = [] := by
  rw [mem_getClients, Option.not_isSome_iff_eq_none] at h
  rw [getAssignment, h]
  rfl

theorem find?_setAssignment (a : StackAssignment) (client k : NetworkId) (states : List Path) :
    (a.setAssignment client states).find? k = if k = client then some states else a.find? k := by
  rw [find?, setAssignment]
  split
  · rename_i h
    rw [h, AList.lookup_insert]
  · rename_i h
    rw [AList.lookup_insert_ne h]
    rfl

theorem find?_update (a assign : StackAssignment) (k : NetworkId) :
    (a.update assign).find? k = (assign.find? k).or (a.find? k) := by
  rw [find?, update]
  rcases hk : assign.find? k with _ | states
  · rw [AList.lookup_union_right (AList.lookup_eq_none.mp hk), Option.none_or]
    rfl
  · have hmem : k ∈ assign.assignments := AList.lookup_isSome.mp (by
      rw [find?] at hk
      rw [hk]
      rfl)
    rw [AList.lookup_union_left hmem]
    exact hk

theorem find?_remove (a : StackAssignment) (client k : NetworkId) :
    (a.remove client).find? k = if k = client then none else a.find? k := by
  rw [find?, remove]
  split
  · rename_i h
    rw [h, AList.lookup_erase]
  · rename_i h
    rw [AList.lookup_erase_ne h]
    rfl

theorem getAssignment_setAssignment (a : StackAssignment) (client k : NetworkId)
    (states : List Path) : (a.setAssignment client states).getAssignment k =
      if k = client then states else a.getAssignment k := by
  rw [getAssignment, find?_setAssignment]
  split <;> rfl

theorem getAssignment_update (a assign : StackAssignment) (k : NetworkId) :
    (a.update assign).getAssignment k = (assign.find? k).getD (a.getAssignment k) := by
  rw [getAssignment, find?_update]
  cases assign.find? k <;> rfl

/-- A created entry is empty, as a missing one counts. -/
@[simp]
theorem getAssignment_touch (a : StackAssignment) (client k : NetworkId) :
    (a.touch client).getAssignment k = a.getAssignment k := by
  rw [touch]
  split
  · rename_i h
    rw [getAssignment_setAssignment]
    split
    · rename_i hk
      rw [hk, getAssignment, h]
      rfl
    · rfl
  · rfl

theorem mem_getClients_update {a assign : StackAssignment} {k : NetworkId} :
    k ∈ (a.update assign).getClients ↔ k ∈ assign.getClients ∨ k ∈ a.getClients := by
  rw [mem_getClients, find?_update, Option.isSome_or, Bool.or_eq_true, mem_getClients,
    mem_getClients]

theorem mem_getClients_setAssignment {a : StackAssignment} {client k : NetworkId}
    {states : List Path} :
    k ∈ (a.setAssignment client states).getClients ↔ k = client ∨ k ∈ a.getClients := by
  rw [mem_getClients, find?_setAssignment, mem_getClients]
  split <;> simp [*]

theorem mem_getClients_touch {a : StackAssignment} {client k : NetworkId} :
    k ∈ (a.touch client).getClients → k = client ∨ k ∈ a.getClients := by
  rw [touch]
  split
  · exact mem_getClients_setAssignment.mp
  · exact .inr

end StackAssignment

end ParLib.Job
