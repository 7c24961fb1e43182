import ParLib.Job.MessageBytes
import ParLib.Wire.PeerBytes

/-!
# The id of a peer on every path

The handshake takes an id by its length, and `PutString` writes all of it. The
string that `NextString` makes of what was written ends at its first NUL. A
content whose length is no `int` never arrives.
-/

namespace ParLib.Job

set_option autoImplicit false

open Foundations Wire ByteInputStream

/-- The handshake with a peer that shows `id` succeeds and leaves `c`. -/
def Shakes (id : NetworkId) (c : ClientConnection) : Prop :=
  ∃ before : ClientConnection, before.handshakeRecv (some (.new messageTypeInitial id)) = (true, c)

/-- A request to divide with a peer arrives, and names the id that its connection has. -/
def KeptInRequests (id : NetworkId) : Prop :=
  ∀ c, Shakes id c → (Message.createDivideWithMessage id).Passes ∧
    ∀ (scratch : Bytes) (outside : Int → Byte),
      Message.decode scratch outside (Message.createDivideWithMessage id) =
        some (.divideWith c.networkId)

/-- A table may have a job for a peer, and one that arrives and has jobs for peers only has
this peer's under the id that its connection has. -/
def KeptInTables (peers : List NetworkId) (id : NetworkId) : Prop :=
  ∀ c, Shakes id c → (Message.createStackAssignmentMessage [⟨id, []⟩]).Passes ∧
    ∀ (a : Wire.StackAssignment) (order : List Entry), a.Sized → a.IsOrder order →
      (∀ k ∈ a.assignments.keys, k ∈ peers) → (Message.createStackAssignmentMessage order).Passes →
      ∀ (scratch : Bytes) (outside : Int → Byte),
        Message.kills scratch outside (Message.createStackAssignmentMessage order) = false ∧
          (Wire.StackAssignment.empty.deserialize scratch
            (ofContent (Message.createStackAssignmentMessage order).content outside)).1.find?
              c.networkId = a.find? id

theorem networkId_of_shakes {id : NetworkId} {c : ClientConnection} (h : Shakes id c) :
    c.networkId = id := by
  obtain ⟨before, hbefore⟩ := h
  cases hbefore
  rfl

theorem exists_shakes (id : NetworkId) : ∃ c, Shakes id c := ⟨_, .start, rfl⟩

theorem cString_eq_self_iff {str : Bytes} : cString str = str ↔ 0 ∉ str := by
  constructor
  · intro h hnul
    rw [← h] at hnul
    exact absurd (List.mem_takeWhile_imp hnul) (by decide)
  · exact cString_of_not_mem

theorem passes_divideWith_iff {id : NetworkId} (hlen : id.length < 2 ^ 31) :
    (Message.createDivideWithMessage id).Passes ↔ id.length < 2 ^ 31 - 4 := by
  have hlength : (stringBytes id).length = 4 + id.length := by
    rw [stringBytes, List.length_append, length_int32Bytes]
  rw [Message.createDivideWithMessage, ByteOutputStream.data_putString, ByteOutputStream.empty,
    List.nil_append, Wire.Message.passes_new_iff]
  all_goals omega

theorem passes_oneJob_iff {id : NetworkId} (hlen : id.length < 2 ^ 31) :
    (Message.createStackAssignmentMessage [⟨id, []⟩]).Passes ↔ id.length < 2 ^ 31 - 12 := by
  have hlength : (arrayBytes entryBytes [⟨id, []⟩]).length = 12 + id.length := by
    rw [arrayBytes, List.flatMap_singleton, entryBytes, stringBytes, intArrayArrayBytes, arrayBytes,
      List.flatMap_nil]
    simp only [List.length_append, length_int32Bytes, List.length_nil]
    omega
  rw [Message.createStackAssignmentMessage, data_serialize, ByteOutputStream.empty,
    List.nil_append, Wire.Message.passes_new_iff]
  all_goals omega

theorem keptInRequests_iff {id : NetworkId} (hlen : id.length < 2 ^ 31) :
    KeptInRequests id ↔ 0 ∉ id ∧ id.length < 2 ^ 31 - 4 := by
  rw [← cString_eq_self_iff]
  constructor
  · intro h
    obtain ⟨c, hc⟩ := exists_shakes id
    obtain ⟨hpasses, hread⟩ := h c hc
    have hshort := (passes_divideWith_iff hlen).mp hpasses
    have hnamed := hread [] fun _ => 0
    rw [Message.decode_divideWith (by omega), networkId_of_shakes hc] at hnamed
    injection hnamed with hnamed
    injection hnamed with hnamed
    exact ⟨hnamed, hshort⟩
  · rintro ⟨hcut, hshort⟩ c hc
    refine ⟨(passes_divideWith_iff hlen).mpr hshort, ?_⟩
    intro scratch outside
    rw [Message.decode_divideWith (by omega), networkId_of_shakes hc, hcut]

theorem not_mem_of_keptInTables {peers : List NetworkId} {id : NetworkId} (hid : id ∈ peers)
    (hlen : id.length < 2 ^ 31) (h : KeptInTables peers id) :
    0 ∉ id ∧ id.length < 2 ^ 31 - 12 := by
  obtain ⟨c, hc⟩ := exists_shakes id
  obtain ⟨hpasses, hread⟩ := h c hc
  refine ⟨?_, (passes_oneJob_iff hlen).mp hpasses⟩
  rw [← cString_eq_self_iff]
  have hsized := Wire.StackAssignment.sized_oneJob hlen
  have horder := Wire.StackAssignment.isOrder_oneJob id
  have hkeys : ∀ k ∈ (Wire.StackAssignment.oneJob id).assignments.keys, k ∈ peers := by
    rw [AList.keys, Wire.StackAssignment.entries_oneJob]
    simpa using hid
  obtain ⟨-, hfound⟩ := hread _ _ hsized horder hkeys hpasses [] fun _ => 0
  obtain ⟨hback, -⟩ := Wire.StackAssignment.deserialize_eq hsized horder [] [] fun _ => 0
  rw [List.append_nil] at hback
  have hcut : (Wire.StackAssignment.oneJob (cString id)).find? id =
      (Wire.StackAssignment.oneJob id).find? id := by
    rw [networkId_of_shakes hc] at hfound
    rw [← hfound]
    exact (congrArg (Wire.StackAssignment.find? · id) hback).symm
  rw [Wire.StackAssignment.find?_oneJob, Wire.StackAssignment.find?_oneJob, if_pos rfl] at hcut
  exact (Option.ite_none_right_eq_some.mp hcut).1.symm

theorem keptInTables_of_short {peers : List NetworkId}
    (hpeers : ∀ id ∈ peers, 0 ∉ id ∧ id.length < 2 ^ 31 - 12) {id : NetworkId} (hid : id ∈ peers) :
    KeptInTables peers id := by
  intro c hc
  have hlen := (hpeers id hid).2
  refine ⟨(passes_oneJob_iff (by omega)).mpr hlen, ?_⟩
  intro a order hsized horder hkeys _ scratch outside
  have hentry : ∀ e ∈ a.assignments.entries, 0 ∉ e.1 ∧ e.1.length < 2 ^ 31 - 12 :=
    fun e he => hpeers _ (hkeys _ (List.mem_map_of_mem he))
  have hencodable : a.Encodable :=
    ⟨hsized.size, fun e he => ⟨(hentry e he).1, hsized.id e he⟩, hsized.states⟩
  have hshort : a.ShortIds := fun e he => (hentry e he).2.trans (by decide)
  obtain ⟨hback, -⟩ := Wire.StackAssignment.deserialize_serialize hencodable horder [] scratch
    outside
  rw [List.append_nil] at hback
  refine ⟨Message.not_kills_stackAssignment hsized hshort horder scratch outside, ?_⟩
  rw [networkId_of_shakes hc]
  exact hback id

/-- Ids of peers are read as they were shown exactly if there is no NUL in them and the messages
that name them are short enough to arrive. -/
theorem peer_ids_keep_their_meaning_iff (peers : List NetworkId)
    (hpeers : ∀ id ∈ peers, id ≠ [] ∧ id.length < 2 ^ 31) :
    ((∀ id ∈ peers, KeptInRequests id) ↔ ∀ id ∈ peers, 0 ∉ id ∧ id.length < 2 ^ 31 - 4) ∧
      ((∀ id ∈ peers, KeptInTables peers id) ↔
        ∀ id ∈ peers, 0 ∉ id ∧ id.length < 2 ^ 31 - 12) := by
  constructor
  · exact forall₂_congr fun id hid => keptInRequests_iff (hpeers id hid).2
  · constructor
    · exact fun h id hid => not_mem_of_keptInTables hid (hpeers id hid).2 (h id hid)
    · exact fun h id hid => keptInTables_of_short h hid

theorem peer_ids_keep_their_meaning_iff_pair :
    (∀ id ∈ [idA, idB], id ≠ [] ∧ id.length < 2 ^ 31) ∧
      (∀ id ∈ [idA, idB], KeptInRequests id) ∧ ∀ id ∈ [idA, idB], KeptInTables [idA, idB] id := by
  have hpeers : ∀ id ∈ [idA, idB], id ≠ [] ∧ id.length < 2 ^ 31 := by decide
  obtain ⟨hrequests, htables⟩ := peer_ids_keep_their_meaning_iff [idA, idB] hpeers
  exact ⟨hpeers, hrequests.mpr (by decide), htables.mpr (by decide)⟩

/-- A peer that shows "A", a NUL and "B" is called "A" in a request. -/
theorem id_with_nul_is_cut :
    ¬ ∀ id : NetworkId, id ≠ [] → id.length < 2 ^ 31 →
      KeptInRequests id ∧ KeptInTables [id] id := by
  intro h
  have hkept := (h [65, 0, 66] (by decide) (by decide)).1
  exact absurd ((keptInRequests_iff (by decide)).mp hkept).1 (by decide)

end ParLib.Job
