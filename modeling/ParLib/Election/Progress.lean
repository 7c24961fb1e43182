import ParLib.Election.StableMesh

/-!
# Elections end, and cost little

In a stable mesh an election message either gets closer to the greatest node
or is answered, so every message in flight causes only a few more. And as soon
as the greatest node leads, whoever sends its id upwards is told so.
-/

namespace ParLib.Election

set_option autoImplicit false

open Foundations

/-- A mesh whose nodes have found each other, all of them running. -/
structure ElectionStart (members : Finset NetworkId) (s : System) : Prop
    extends MeshStart members s where
  discovered : ∀ x ∈ members, (s.nodes x).discovered = true
  electionParticipant : ∀ x ∈ members, (s.nodes x).electionParticipant = false
  running : ∀ x ∈ members, s.crashed x = false

/-- Timers and deliveries. -/
def ElectionAction (members : Finset NetworkId) (_ : System) : Action → Prop
  | .step id _ _ => id ∈ members
  | .deliver _ => True
  | _ => False

/-- The action makes the election timer fire. -/
def System.fires (s : System) : Action → Bool
  | .step id electionTimeOut _ =>
    (s.nodes id).discovered && (s.nodes id).leaderId.isEmpty && electionTimeOut
  | _ => false

def System.delivers (_ : System) : Action → Bool
  | .deliver _ => true
  | _ => false

/-- How many deliveries a message may still cause, its own included. -/
def Message.rank (members : Finset NetworkId) (dst : NetworkId) : Message → Nat
  | .election electId =>
    if electId < dst then (members.filter fun y => dst < y).card + 4
    else if electId = dst then 2 else 3
  | .elected _ | .knownLeader _ => 1

def System.rank (members : Finset NetworkId) (s : System) : Nat :=
  (s.packets.map fun p => p.msg.rank members p.dst).sum

/-- What holds throughout an election: only the greatest node is ever announced, and only
once it leads. -/
structure Electing (members : Finset NetworkId) (greatest : NetworkId) (s : System) : Prop where
  nodes : ∀ x, MeshMember members greatest x (s.nodes x)
  packets : ∀ p ∈ s.packets, MeshPacket members greatest p
  running : ∀ x ∈ members, s.crashed x = false
  active : ∀ x ∈ members,
    (s.nodes x).discovered = true ∧ (s.nodes x).electionParticipant = false
  known : ∀ x ∈ members, (s.nodes x).leaderId ≠ [] → (s.nodes greatest).leaderId ≠ []
  announced : ∀ p ∈ s.packets, (∀ electId, p.msg ≠ .election electId) →
    (s.nodes greatest).leaderId ≠ []

section Election

variable {members : Finset NetworkId} {greatest : NetworkId}
  (hcard : 2 ≤ members.card) (hne : [] ∉ members)
  (hgreatest : IsGreatest (members : Set NetworkId) greatest)

include hne in
theorem Electing.isUp {s : System} (h : Electing members greatest s) {x : NetworkId}
    (hx : x ∈ members) : s.isUp x = true := by
  have hxne : x ≠ [] := fun hnil => hne (hnil ▸ hx)
  simp [System.isUp, h.running x hx, hxne]

/-- A handler keeps a leader that is known, learns of one only where the greatest node
knows, and tells nobody of one that it does not know. -/
theorem Electing.commit {s : System} (h : Electing members greatest s) {id : NetworkId}
    {rest : List Packet} {r : NetworkManager × List Send} (hrest : ∀ p ∈ rest, p ∈ s.packets)
    (hnode : MeshNode members greatest id r.1)
    (hsent : ∀ q ∈ r.2, MeshPacket members greatest ⟨id, q.destId, q.msg⟩)
    (hactive : r.1.discovered = true ∧ r.1.electionParticipant = false)
    (hkeeps : (s.nodes id).leaderId ≠ [] → r.1.leaderId ≠ [])
    (hknown : r.1.leaderId ≠ [] → id = greatest ∨ (s.nodes greatest).leaderId ≠ [])
    (hannounced : ∀ q ∈ r.2, (∀ electId, q.msg ≠ .election electId) → r.1.leaderId ≠ []) :
    Electing members greatest (({ s with packets := rest }).commit id r) := by
  have hstays : (s.nodes greatest).leaderId ≠ [] →
      ((({ s with packets := rest }).commit id r).nodes greatest).leaderId ≠ [] := by
    intro hleads
    rcases eq_or_ne greatest id with rfl | hid
    · rw [System.commit_nodes_self]
      exact hkeeps hleads
    · rwa [System.commit_nodes_of_ne _ _ hid]
  have hlearns : r.1.leaderId ≠ [] →
      ((({ s with packets := rest }).commit id r).nodes greatest).leaderId ≠ [] := by
    intro hr
    rcases hknown hr with rfl | hleads
    · rwa [System.commit_nodes_self]
    · exact hstays hleads
  obtain ⟨hnodes, hpackets⟩ := System.commit_local _ _ (fun x _ => h.nodes x) h.packets hrest
    (fun _ => hnode) hsent
  refine ⟨hnodes, hpackets, h.running, ?_, ?_, ?_⟩
  · intro x hx
    rcases eq_or_ne x id with rfl | hxid
    · rwa [System.commit_nodes_self]
    · rw [System.commit_nodes_of_ne _ _ hxid]
      exact h.active x hx
  · intro x hx hleader
    rcases eq_or_ne x id with rfl | hxid
    · rw [System.commit_nodes_self] at hleader
      exact hlearns hleader
    · rw [System.commit_nodes_of_ne _ _ hxid] at hleader
      exact hstays (h.known x hx hleader)
  · intro p hp hmsg
    rcases System.mem_commit_packets.mp hp with hp | ⟨q, hq, rfl⟩
    · exact hstays (h.announced p (hrest p hp) hmsg)
    · exact hlearns (hannounced q hq hmsg)

include hcard hne hgreatest in
theorem Electing.onElectionMessage {s : System} (h : Electing members greatest s)
    {x electId : NetworkId} {rest : List Packet} (hrest : ∀ p ∈ rest, p ∈ s.packets)
    (hx : x ∈ members) (senderId : NetworkId) (he : MeshElection members greatest electId x) :
    Electing members greatest (({ s with packets := rest }).commit x
      ((s.nodes x).onElectionMessage senderId electId)) := by
  have hm := h.nodes x hx
  have hactive := h.active x hx
  obtain ⟨hnode, hsent⟩ := hm.onElectionMessage hcard hne hgreatest hx senderId he
  rcases (s.nodes x).onElectionMessage_cases senderId electId with
    ⟨hknown, hsame, hmsg⟩ | ⟨hunknown, -, hsame, hmsg⟩ | ⟨hunknown, hown, hsame, hmsg⟩
  · have hleads : ((s.nodes x).onElectionMessage senderId electId).1.leaderId ≠ [] := by
      rwa [hsame]
    apply h.commit hrest hnode hsent
    · rwa [hsame]
    · exact fun _ => hleads
    · exact fun _ => .inr (h.known x hx hknown)
    · exact fun _ _ _ => hleads
  · apply h.commit hrest hnode hsent
    · rwa [hsame]
    · exact fun hknown => absurd hunknown hknown
    · exact fun hknown => absurd hunknown (hsame ▸ hknown)
    · intro q hq hother
      obtain ⟨e, hq⟩ := hmsg q hq
      exact absurd hq (hother e)
  · rw [hm.networkId] at hown hsame
    have hxne : x ≠ [] := fun hnil => hne (hnil ▸ hx)
    have hleads : ((s.nodes x).onElectionMessage senderId electId).1.leaderId ≠ [] := by
      rw [hsame]
      exact hxne
    apply h.commit hrest hnode hsent
    · rw [hsame]
      exact ⟨hactive.1, rfl⟩
    · exact fun _ => hleads
    · exact fun _ => .inl (hown ▸ he).eq_greatest
    · exact fun _ _ _ => hleads

include hne hgreatest in
theorem Electing.adoptLeader {s : System} (h : Electing members greatest s)
    {x electId : NetworkId} {rest : List Packet} (hrest : ∀ p ∈ rest, p ∈ s.packets)
    (hx : x ∈ members) (he : electId = greatest) (hleads : (s.nodes greatest).leaderId ≠ []) :
    Electing members greatest (({ s with packets := rest }).commit x
      ((s.nodes x).adoptLeader electId, [])) := by
  have hm := h.nodes x hx
  have hactive := h.active x hx
  apply h.commit hrest (hm.adoptLeader he) (by simp)
  · rw [NetworkManager.adoptLeader]
    split
    · exact hactive
    · exact ⟨hactive.1, rfl⟩
  · intro hknown
    rw [NetworkManager.adoptLeader]
    split
    · exact hknown
    · rw [he]
      exact fun hnil => hne (hnil ▸ hgreatest.1)
  · exact fun _ => .inr hleads
  · simp

include hcard hne hgreatest in
theorem Electing.next {s t : System} {a : Action} (h : Electing members greatest s)
    (ha : ElectionAction members s a) (hstep : s.next a = some t) :
    Electing members greatest t := by
  cases System.move_of_next hstep with
  | crash => exact ha.elim
  | lose => exact ha.elim
  | @node _ id rest r hup hrest hr =>
    cases hr with
    | discover => exact ha.elim
    | connect => exact ha.elim
    | discard => exact ha.elim
    | step _ electionTimeOut tenSeconds =>
      have hid : id ∈ members := ha
      have hm := h.nodes id hid
      obtain ⟨hnode, hsent⟩ := hm.step hcard hne hgreatest hid electionTimeOut tenSeconds
      have heq := hm.step_eq hcard hne hgreatest hid electionTimeOut tenSeconds
      apply h.commit hrest hnode hsent
      · rw [heq]
        exact h.active id hid
      · rw [heq]
        exact fun hknown => hknown
      · rw [heq]
        exact fun hknown => .inr (h.known id hid hknown)
      · rw [heq]
        intro q hq hother
        dsimp only at hq
        split at hq
        · rw [List.mem_singleton.mp hq] at hother
          exact absurd rfl (hother id)
        · cases hq
    | deliver index p hp =>
      have hmem := List.mem_of_getElem? hp
      obtain ⟨hdst, hmsg⟩ := h.packets p hmem
      have hannounced := h.announced p hmem
      obtain ⟨src, dst, msg⟩ := p
      cases msg with
      | election electId => exact h.onElectionMessage hcard hne hgreatest hrest hdst src hmsg
      | elected electId | knownLeader electId =>
        exact h.adoptLeader hne hgreatest hrest hdst hmsg (hannounced (by simp))

include hne in
theorem ElectionStart.electing {s : System} (h : ElectionStart members s) :
    Electing members greatest s where
  nodes := (h.members_packets hne).1
  packets := (h.members_packets hne).2
  running := h.running
  active x hx := ⟨h.discovered x hx, h.electionParticipant x hx⟩
  known x hx hknown := absurd (h.leaderId x hx) hknown
  announced := by simp [h.packets]

section Traffic

def sentRank (members : Finset NetworkId) (sent : List Send) : Nat :=
  (sent.map fun q => q.msg.rank members q.destId).sum

theorem sentRank_sendMsg (members : Finset NetworkId) (m : NetworkManager) (msg : Message)
    (destId : NetworkId) :
    sentRank members (m.sendMsg msg destId) ≤ msg.rank members destId := by
  rw [NetworkManager.sendMsg]
  split
  · exact Nat.zero_le _
  · exact (Nat.add_zero _).le

theorem rank_commit (members : Finset NetworkId) (s : System) (rest : List Packet) (id : NetworkId)
    (r : NetworkManager × List Send) :
    (({ s with packets := rest }).commit id r).rank members =
      { s with packets := rest }.rank members + sentRank members r.2 := by
  simp only [System.rank, System.commit, List.map_append, List.map_map, List.sum_append]
  rfl

theorem card_filter_lt {p q : NetworkId → Prop} [DecidablePred p] [DecidablePred q]
    (himp : ∀ z ∈ members, q z → p z) {y : NetworkId} (hy : y ∈ members) (hp : p y) (hq : ¬ q y) :
    (members.filter q).card < (members.filter p).card := by
  apply Finset.card_lt_card
  rw [Finset.ssubset_iff_of_subset]
  · exact ⟨y, Finset.mem_filter.mpr ⟨hy, hp⟩, fun h => hq (Finset.mem_filter.mp h).2⟩
  · intro z hz
    obtain ⟨hz, hqz⟩ := Finset.mem_filter.mp hz
    exact Finset.mem_filter.mpr ⟨hz, himp z hz hqz⟩

/-- Further up there are fewer nodes to climb to. -/
theorem card_above_lt {x y : NetworkId} (hy : y ∈ members) (hlt : x < y) :
    (members.filter fun z => y < z).card < (members.filter fun z => x < z).card :=
  card_filter_lt (fun _ _ => hlt.trans) hy hlt (lt_irrefl y)

include hcard hne hgreatest in
/-- A node's own election message costs less than one that reaches it. -/
theorem MeshNode.own_rank {x : NetworkId} {m : NetworkManager}
    (hm : MeshNode members greatest x m) (hx : x ∈ members) :
    (Message.election x).rank members (m.getNextId x) ≤
      (members.filter fun y => x < y).card + 3 := by
  have hnext := (hm.connected _).mp (hm.next_connected hcard hne hgreatest hx)
  rw [Message.rank]
  split
  · rename_i hlt
    have hless := card_above_lt hnext.1 hlt
    omega
  · rw [if_neg hnext.2.symm]
    omega

include hne hgreatest in
/-- The greatest id, on its last hop home. -/
theorem MeshNode.next_home {x electId : NetworkId} {m : NetworkManager}
    (hm : MeshNode members greatest x m) (hx : x ∈ members) (hlt : x < electId)
    (he : MeshElection members greatest electId x) :
    electId = greatest ∧ m.getNextId x = greatest := by
  obtain ⟨rfl, hplace⟩ := he.resolve_left (lt_asymm hlt)
  obtain ⟨hnext, hgt⟩ := hm.next_larger hne hgreatest hx hlt.ne
  refine ⟨rfl, ?_⟩
  by_contra hother
  rcases hplace with rfl | hplace
  · exact lt_irrefl x hlt
  · exact absurd hgt (not_lt.mpr (hplace _ hnext hother))

include hcard hne hgreatest in
theorem MeshNode.rank_onElectionMessage {x electId : NetworkId} {m : NetworkManager}
    (hm : MeshNode members greatest x m) (hx : x ∈ members) (senderId : NetworkId)
    (he : MeshElection members greatest electId x) :
    sentRank members (m.onElectionMessage senderId electId).2 + 1 ≤
      (Message.election electId).rank members x := by
  have hsent := sentRank_sendMsg members m
  have hrank : (Message.election electId).rank members x =
      if electId < x then (members.filter fun y => x < y).card + 4
      else if electId = x then 2 else 3 := rfl
  have htwo : 2 ≤ (Message.election electId).rank members x := by
    rw [hrank]
    split_ifs <;> omega
  rw [NetworkManager.onElectionMessage, hm.networkId]
  split_ifs with hknown hlarger hsmaller hown
  · exact (Nat.succ_le_succ (hsent (.knownLeader m.leaderId) senderId)).trans htwo
  · obtain ⟨rfl, hhome⟩ := hm.next_home hne hgreatest hx hlarger he
    have hlast : (Message.election electId).rank members (m.getNextId x) = 2 := by
      rw [hhome]
      simp [Message.rank]
    have hthree : (Message.election electId).rank members x = 3 := by
      rw [hrank, if_neg (lt_asymm hlarger), if_neg hlarger.ne']
    rw [hthree]
    exact Nat.succ_le_succ ((hsent (.election electId) (m.getNextId x)).trans hlast.le)
  · rw [hrank, if_pos hsmaller.1]
    exact Nat.succ_le_succ ((hsent (.election x) (m.getNextId x)).trans
      (hm.own_rank hcard hne hgreatest hx))
  · exact (Nat.succ_le_succ (hsent (.elected x) (m.getNextId x))).trans htwo
  · exact Nat.le_of_succ_le htwo

theorem rank_eraseIdx (members : Finset NetworkId) {s : System} {index : Nat} {p : Packet}
    (hp : s.packets[index]? = some p) :
    p.msg.rank members p.dst + { s with packets := s.packets.eraseIdx index }.rank members =
      s.rank members := by
  obtain ⟨hlen, rfl⟩ := List.getElem?_eq_some_iff.mp hp
  have hlen' : index < (s.packets.map fun p => p.msg.rank members p.dst).length := by
    rwa [List.length_map]
  have hsum := List.CommMonoid.add_sum_eraseIdx hlen'
  rw [List.getElem_map, List.eraseIdx_map] at hsum
  exact hsum

include hcard hne hgreatest in
theorem MeshNode.rank_onMessage {x : NetworkId} {m : NetworkManager}
    (hm : MeshNode members greatest x m) (hx : x ∈ members) (senderId : NetworkId) {msg : Message}
    (hmsg : MeshMessage members greatest x msg) :
    sentRank members (m.onMessage senderId msg).2 + 1 ≤ msg.rank members x := by
  cases msg with
  | election electId => exact hm.rank_onElectionMessage hcard hne hgreatest hx senderId hmsg
  | elected electId | knownLeader electId => exact le_rfl

include hcard hne hgreatest in
/-- A timer brings in at most two more deliveries than there are nodes. -/
theorem MeshNode.rank_fired {x : NetworkId} {m : NetworkManager}
    (hm : MeshNode members greatest x m) (hx : x ∈ members) :
    sentRank members [⟨m.getNextId x, .election x⟩] ≤ members.card + 2 := by
  have habove : (members.filter fun y => x < y).card < members.card :=
    Finset.card_lt_card (Finset.filter_ssubset.mpr ⟨x, hx, lt_irrefl x⟩)
  calc sentRank members [⟨m.getNextId x, .election x⟩]
      = (Message.election x).rank members (m.getNextId x) := Nat.add_zero _
    _ ≤ (members.filter fun y => x < y).card + 3 := hm.own_rank hcard hne hgreatest hx
    _ ≤ members.card + 2 := by omega

include hcard hne hgreatest in
/-- A delivery uses up rank, and only a timer brings in new one. -/
theorem Electing.rank_next {s t : System} {a : Action} (h : Electing members greatest s)
    (ha : ElectionAction members s a) (hstep : s.next a = some t) :
    (s.delivers a).toNat + t.rank members ≤
      (s.fires a).toNat * (members.card + 2) + s.rank members := by
  cases a with
  | step id electionTimeOut tenSeconds =>
    obtain ⟨-, ⟨⟩⟩ := Option.ite_none_right_eq_some.mp hstep
    have hm := h.nodes id ha
    have hfires : ((s.nodes id).discovered && (s.nodes id).leaderId.isEmpty && electionTimeOut) =
        s.fires (.step id electionTimeOut tenSeconds) := rfl
    have hrank := rank_commit members s s.packets id (s.nodes id,
      if s.fires (.step id electionTimeOut tenSeconds) then
        [⟨(s.nodes id).getNextId id, .election id⟩] else [])
    have hsame : { s with packets := s.packets }.rank members = s.rank members := rfl
    rw [hm.step_eq hcard hne hgreatest ha, hfires]
    rw [hsame] at hrank
    change 0 + _ ≤ _
    rw [Nat.zero_add, hrank]
    cases s.fires (.step id electionTimeOut tenSeconds) with
    | false => simp [sentRank]
    | true =>
      have hfired := hm.rank_fired hcard hne hgreatest ha
      simp only [if_true, Bool.toNat_true, Nat.one_mul]
      omega
  | deliver index =>
    rw [System.next] at hstep
    split at hstep
    · cases hstep
    · rename_i p hp
      obtain ⟨hup, ⟨⟩⟩ := Option.ite_none_right_eq_some.mp hstep
      obtain ⟨hdst, hmsg⟩ := h.packets p (List.mem_of_getElem? hp)
      have hspent := (h.nodes p.dst hdst).rank_onMessage hcard hne hgreatest hdst p.src hmsg
      have herased := rank_eraseIdx members hp
      rw [rank_commit]
      change 1 + _ ≤ 0 * _ + _
      omega
  | discover | connect | discard | crash | lose => exact ha.elim

end Traffic

section Continuation

include hcard hne hgreatest in
theorem Electing.run {s t : System} (h : Electing members greatest s)
    (hrun : Run System.next (ElectionAction members) s t) : Electing members greatest t :=
  hrun.invariant h fun _ _ _ hu ha hstep => hu.next hcard hne hgreatest ha hstep

include hcard hne hgreatest in
/-- Let the timer of a node fire that knows no leader. -/
theorem Electing.exists_fire {s : System} (h : Electing members greatest s) {x : NetworkId}
    (hx : x ∈ members) (hunknown : (s.nodes x).leaderId = []) :
    ∃ t, Run System.next (ElectionAction members) s t ∧ t.nodes = s.nodes ∧
      t.packets = s.packets ++ [⟨x, (s.nodes x).getNextId x, .election x⟩] := by
  have heq := (h.nodes x hx).step_eq hcard hne hgreatest hx true false
  rw [(h.active x hx).1, hunknown] at heq
  have hnext : s.next (.step x true false) =
      some (s.commit x ((s.nodes x).step true false)) := if_pos (h.isUp hne hx)
  have ha : ElectionAction members s (.step x true false) := hx
  refine ⟨_, .tail .refl ha hnext, ?_, ?_⟩
  · rw [heq]
    exact Function.update_eq_self x s.nodes
  · rw [heq]
    rfl

include hne in
/-- Deliver the message that was sent last. -/
theorem Electing.exists_deliver {s : System} (h : Electing members greatest s)
    {ps : List Packet} {p : Packet} (hp : s.packets = ps ++ [p]) :
    ∃ t, Run System.next (ElectionAction members) s t ∧
      t.nodes = Function.update s.nodes p.dst ((s.nodes p.dst).onMessage p.src p.msg).1 ∧
      t.packets = ps ++ ((s.nodes p.dst).onMessage p.src p.msg).2.map
        fun q => ⟨p.dst, q.destId, q.msg⟩ := by
  have hdst : p.dst ∈ members := (h.packets p (by simp [hp])).1
  have hget : s.packets[ps.length]? = some p := by simp [hp]
  have herase : s.packets.eraseIdx ps.length = ps := by
    rw [hp, List.eraseIdx_append_of_length_le le_rfl]
    simp
  have hnext : s.next (.deliver ps.length) = some (({ s with packets := ps }).commit p.dst
      ((s.nodes p.dst).onMessage p.src p.msg)) := by
    rw [System.next, hget]
    dsimp only
    rw [if_pos (h.isUp hne hdst), herase]
  have ha : ElectionAction members s (.deliver ps.length) := trivial
  exact ⟨_, .tail .refl ha hnext, rfl, rfl⟩

include hcard hne hgreatest in
/-- A node below one that knows the leader asks it, and is told. -/
theorem Electing.learn {s : System} (h : Electing members greatest s) {x : NetworkId}
    (hx : x ∈ members) (hunknown : (s.nodes x).leaderId = [])
    (hknows : (s.nodes ((s.nodes x).getNextId x)).leaderId ≠ []) :
    ∃ t, Run System.next (ElectionAction members) s t ∧ (t.nodes x).leaderId ≠ [] ∧
      ∀ z, z ≠ x → t.nodes z = s.nodes z := by
  have hm := h.nodes x hx
  obtain ⟨hy, hyx⟩ := (hm.connected _).mp (hm.next_connected hcard hne hgreatest hx)
  have hxg : greatest ≠ (s.nodes x).networkId := by
    rw [hm.networkId]
    rintro rfl
    exact h.known _ hy hknows hunknown
  obtain ⟨asked, hask, hasked, hquestion⟩ := h.exists_fire hcard hne hgreatest hx hunknown
  have h₁ := h.run hcard hne hgreatest hask
  generalize (s.nodes x).getNextId x = y at hy hyx hknows hquestion
  have hanswer := NetworkManager.onElectionMessage_of_known x x hknows
    (((h.nodes y hy).connected x).mpr ⟨hx, hyx.symm⟩)
  rw [(h.nodes y hy).leaderId.resolve_left hknows] at hanswer
  obtain ⟨answered, hreply, hnodes, hpackets⟩ := h₁.exists_deliver hne hquestion
  simp only [hasked, NetworkManager.onMessage, hanswer, Function.update_eq_self,
    List.map_cons, List.map_nil] at hnodes hpackets
  have h₂ := h₁.run hcard hne hgreatest hreply
  obtain ⟨told, htell, hlearnt, -⟩ := h₂.exists_deliver hne hpackets
  rw [hnodes] at hlearnt
  refine ⟨told, (hask.trans hreply).trans htell, ?_, ?_⟩
  · rw [hlearnt, Function.update_self, NetworkManager.onMessage,
      NetworkManager.onKnownLeaderMessage, NetworkManager.adoptLeader_leaderId hxg]
    exact fun hnil => hne (hnil ▸ hgreatest.1)
  · intro z hz
    rw [hlearnt, Function.update_of_ne hz]

include hcard hne hgreatest in
/-- The greatest node's own election message goes down one node and comes back. -/
theorem Electing.crown {s : System} (h : Electing members greatest s)
    (hunknown : (s.nodes greatest).leaderId = []) :
    ∃ t, Run System.next (ElectionAction members) s t ∧ (t.nodes greatest).leaderId ≠ [] := by
  have hg := hgreatest.1
  have hm := h.nodes greatest hg
  obtain ⟨hz, hzg⟩ := (hm.connected _).mp (hm.next_connected hcard hne hgreatest hg)
  have helection := (hm.own_election hcard hne hgreatest hg).2
  obtain ⟨fired, hfire, hfired, hsent⟩ := h.exists_fire hcard hne hgreatest hg hunknown
  have h₁ := h.run hcard hne hgreatest hfire
  generalize (s.nodes greatest).getNextId greatest = z at hz hzg helection hsent
  have hlt : z < greatest := lt_of_le_of_ne (hgreatest.2 hz) hzg
  have hzunknown : (s.nodes z).leaderId = [] := by
    by_contra hknows
    exact h.known z hz hknows hunknown
  have hmz := h.nodes z hz
  have hhome := (hmz.next_home hne hgreatest hz hlt helection).2
  have hforward := NetworkManager.onElectionMessage_of_larger greatest hzunknown
    (hmz.networkId.symm ▸ hlt) (hmz.networkId.symm ▸ hmz.next_connected hcard hne hgreatest hz)
  rw [hmz.networkId, hhome] at hforward
  obtain ⟨forwarded, hpass, hnodes, hpackets⟩ := h₁.exists_deliver hne hsent
  simp only [hfired, NetworkManager.onMessage, hforward, Function.update_eq_self,
    List.map_cons, List.map_nil] at hnodes hpackets
  have h₂ := h₁.run hcard hne hgreatest hpass
  obtain ⟨crowned, hcrown, hleads, -⟩ := h₂.exists_deliver hne hpackets
  refine ⟨crowned, (hfire.trans hpass).trans hcrown, ?_⟩
  have hown := NetworkManager.onElectionMessage_of_own z hunknown
  rw [hm.networkId] at hown
  rw [hleads, Function.update_self, NetworkManager.onMessage, hnodes, hown]
  exact fun hnil => hne (hnil ▸ hg)

include hcard hne hgreatest in
/-- Once the greatest node leads, the others learn of it from the top down. -/
theorem Electing.everyone_learns {s : System} (h : Electing members greatest s)
    (hleads : (s.nodes greatest).leaderId ≠ []) :
    ∃ t, Run System.next (ElectionAction members) s t ∧
      ∀ x ∈ members, (t.nodes x).leaderId ≠ [] := by
  induction hn : (members.filter fun x => (s.nodes x).leaderId = []).card
    using Nat.strong_induction_on generalizing s with
  | h n ih =>
    rcases Finset.eq_empty_or_nonempty (members.filter fun x => (s.nodes x).leaderId = [])
      with hall | hsome
    · refine ⟨s, .refl, ?_⟩
      intro x hx
      exact Finset.filter_eq_empty_iff.mp hall hx
    · obtain ⟨x, hmem, hmax⟩ := Finset.exists_max_image _ id hsome
      obtain ⟨hx, hunknown⟩ := Finset.mem_filter.mp hmem
      have hxg : x ≠ greatest := fun hxg => hleads (hxg ▸ hunknown)
      obtain ⟨hy, hlt⟩ := (h.nodes x hx).next_larger hne hgreatest hx hxg
      have hknows : (s.nodes ((s.nodes x).getNextId x)).leaderId ≠ [] := fun hynil =>
        absurd hlt (not_lt.mpr (hmax _ (Finset.mem_filter.mpr ⟨hy, hynil⟩)))
      obtain ⟨t, hlearn, hlearnt, hothers⟩ := h.learn hcard hne hgreatest hx hunknown hknows
      have hfewer : (members.filter fun z => (t.nodes z).leaderId = []).card < n := by
        rw [← hn]
        apply card_filter_lt _ hx hunknown hlearnt
        intro z _ hznil
        have hzx : z ≠ x := by
          rintro rfl
          exact hlearnt hznil
        rwa [hothers z hzx] at hznil
      have hstill : (t.nodes greatest).leaderId ≠ [] := by
        rwa [hothers greatest hxg.symm]
      obtain ⟨u, hrest, hall⟩ := ih _ hfewer (h.run hcard hne hgreatest hlearn) hstill rfl
      exact ⟨u, hlearn.trans hrest, hall⟩

theorem elections_end_and_cost_little (members : Finset NetworkId) (greatest : NetworkId)
    (hcard : 2 ≤ members.card) (hne : [] ∉ members)
    (hgreatest : IsGreatest (members : Set NetworkId) greatest) (start : System)
    (hstart : ElectionStart members start) :
    (∀ s, Run System.next (ElectionAction members) start s →
      ∃ t, Run System.next (ElectionAction members) s t ∧
        ∀ x ∈ members, (t.nodes x).leaderId = greatest ∧
          ((t.nodes x).leader = true ↔ x = greatest)) ∧
    ∀ s fired delivered,
      CountedRun System.next (ElectionAction members) System.fires System.delivers start s
        fired delivered →
      delivered ≤ fired * (members.card + 2) := by
  have hinit : Electing members greatest start := hstart.electing hne
  constructor
  · intro s hrun
    have h := hinit.run hcard hne hgreatest hrun
    obtain ⟨led, hcrown, hleads⟩ : ∃ t, Run System.next (ElectionAction members) s t ∧
        (t.nodes greatest).leaderId ≠ [] := by
      by_cases hunknown : (s.nodes greatest).leaderId = []
      · exact h.crown hcard hne hgreatest hunknown
      · exact ⟨s, .refl, hunknown⟩
    have hled := h.run hcard hne hgreatest hcrown
    obtain ⟨t, hspread, hall⟩ := hled.everyone_learns hcard hne hgreatest hleads
    have ht := hled.run hcard hne hgreatest hspread
    refine ⟨t, hcrown.trans hspread, ?_⟩
    intro x hx
    have hleader := (ht.nodes x hx).leaderId.resolve_left (hall x hx)
    refine ⟨hleader, ?_⟩
    rw [(ht.nodes x hx).leader, hleader]
    exact eq_comm
  · intro s fired delivered hrun
    have hstep : ∀ t a u, Electing members greatest t → ElectionAction members t a →
        t.next a = some u → Electing members greatest u ∧
          (t.delivers a).toNat + u.rank members ≤
            (t.fires a).toNat * (members.card + 2) + t.rank members := fun t a u ht ha hnext =>
      ⟨ht.next hcard hne hgreatest ha hnext, ht.rank_next hcard hne hgreatest ha hnext⟩
    have hbound := (hrun.bounded hinit hstep).2
    have hnone : start.rank members = 0 := by
      simp [System.rank, hstart.packets]
    omega

end Continuation

end Election

theorem pairMesh_electionStart : ElectionStart {idA, idB} pairMesh where
  toMeshStart := pairMesh_start
  discovered _ _ := rfl
  electionParticipant _ _ := rfl
  running _ _ := rfl

theorem elections_in_a_pair_end_and_cost_little :
    (∀ s, Run System.next (ElectionAction {idA, idB}) pairMesh s →
      ∃ t, Run System.next (ElectionAction {idA, idB}) s t ∧
        ∀ x ∈ ({idA, idB} : Finset NetworkId), (t.nodes x).leaderId = idB ∧
          ((t.nodes x).leader = true ↔ x = idB)) ∧
    ∀ s fired delivered,
      CountedRun System.next (ElectionAction {idA, idB}) System.fires System.delivers pairMesh s
        fired delivered →
      delivered ≤ fired * (({idA, idB} : Finset NetworkId).card + 2) :=
  elections_end_and_cost_little {idA, idB} idB (by decide) (by decide)
    (by simp [IsGreatest, upperBounds]; decide) pairMesh pairMesh_electionStart

end ParLib.Election
