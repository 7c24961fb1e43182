import ParLib.Job.OrderlySteps

/-!
# Orderly runs are sound

The invariant holds when the computation starts and is kept by every step.
-/

namespace ParLib.Job

set_option autoImplicit false

open Foundations ParallelStack

namespace System

variable {leader : NetworkId} {s t : System}

theorem Sound.mem_knownClients (h : s.Sound leader) {k : NetworkId} :
    k ∈ (s.net leader).knownClients ↔ s.Known leader k := by
  rw [Net.mem_knownClients, h.wired.networkId, Known, or_comm]

theorem Sound.connected (h : s.Sound leader) {table : StackAssignment}
    (htable : (s.comp leader).currAssignment = some table) (k : NetworkId)
    (hk : table.getAssignment k ≠ []) : k ∈ (s.net leader).knownClients := by
  rw [← recorded_of_table htable] at hk
  exact h.mem_knownClients.mpr (h.known_of_recorded hk)

theorem Sound.harmless_of_request (h : s.Sound leader) {q : Send}
    (hq : Computation.Request (s.net leader) q) : s.Harmless leader q := by
  obtain ⟨hdest, id, hmsg, hknown, hne⟩ := hq
  exact ⟨hdest, .inr (.inr ⟨id, hmsg, h.mem_knownClients.mp hknown, hne⟩)⟩

theorem Sound.harmless_of_notice (h : s.Sound leader) {table : StackAssignment}
    (htable : (s.comp leader).currAssignment = some table) {sync : Bool} {q : Send}
    (hq : Computation.Notice (s.net leader) table sync q) : s.Harmless leader q := by
  rcases hq with ⟨hdest, ⟨repeated, hmsg, hrepeated, -⟩ | ⟨hmsg, hjobs⟩⟩ | hq
  · refine ⟨hdest, .inl ⟨repeated, hmsg, ?_⟩⟩
    intro k v hk
    apply h.listed k
    rw [Computation.Listed, htable, Option.getD_some, StackAssignment.mem_getClients,
      hrepeated k v hk]
    rfl
  · refine ⟨hdest, .inr (.inl ⟨hmsg, ?_⟩)⟩
    intro k
    rw [recorded_of_table htable]
    exact Computation.ClientSets.getAssignment_of_noJobsLeft hjobs k
  · exact h.harmless_of_request hq

theorem Sound.check (h : s.Sound leader) {table : StackAssignment}
    (hstate : (s.comp leader).state = .computing ∨ (s.comp leader).state = .waiting)
    (htable : (s.comp leader).currAssignment = some table) (sync : Bool) (phase : Phase) :
    (s.commit leader phase ((s.comp leader).checkTable (s.net leader) table sync)).Sound
      leader := by
  have hfirst : ((s.comp leader).checked (s.net leader) table).state ≠ .initial ∧
      (((s.comp leader).checked (s.net leader) table).state = (s.comp leader).state ∨
        ((s.comp leader).checked (s.net leader) table).state = .finished ∧
          ∀ k, s.recorded leader k = []) := by
    rcases (s.comp leader).checked_state (s.net leader) table with hsame | ⟨hfinished, hjobs⟩
    · rw [hsame]
      exact ⟨by rcases hstate with hstate | hstate <;> simp [hstate], .inl rfl⟩
    · rw [hfinished]
      refine ⟨State.noConfusion, .inr ⟨rfl, ?_⟩⟩
      intro k
      rw [recorded_of_table htable]
      exact Computation.ClientSets.getAssignment_of_noJobsLeft hjobs k
  refine (checkTable_induction
    (P := fun s' => s'.Sound leader ∧ (s'.comp leader).state ≠ .initial)
    (h.wired.networkId leader) sync (h.connected htable) ?_ ?_ ?_).1
  · intro sent hsent
    refine ⟨h.notices rfl hfirst.1 hfirst.2 (Computation.checked_recorded htable (s.net leader))
      (fun _ hk => Computation.checked_listed htable hk)
      fun q hq => h.harmless_of_notice htable (hsent q hq), ?_⟩
    rw [commit_comp_self]
    exact hfirst.1
  · rintro s' client hnet ⟨h', hstarted⟩ hcomp hclient hne hfree
    have hfree' : s'.recorded leader client = [] := by
      rw [recorded, hcomp, Computation.checked_recorded htable]
      exact (recorded_of_table htable client).trans hfree
    have hknown : s'.Known leader client := (h.mem_knownClients.mp hclient).of_net hnet
    refine ⟨h'.divide hknown hne fun _ => hfree', ?_⟩
    rw [commit_comp_self]
    rw [← h'.wired.networkId leader] at hne
    cases (s'.comp leader).onDivideWith_state hne with
    | inl hstate => rwa [hstate]
    | inr hstate =>
      rw [hstate]
      exact State.noConfusion
  · rintro s' sent hnet ⟨h', hstarted⟩ hsent
    refine ⟨h'.notices rfl hstarted (.inl rfl) (fun _ => rfl) (fun _ hk => hk)
      fun q hq => h'.harmless_of_request (hnet ▸ hsent q hq), ?_⟩
    rwa [commit_comp_self]

/-- Dealing out the search: the leader records every share it sends. -/
theorem Sound.init (h : s.Sound leader) {r : Computation × List Send}
    (hstate : (s.comp leader).state = .initial)
    (hr : { s.comp leader with state := .waiting }.initLeaderStep (s.net leader) = some r)
    (phase : Phase) : (s.commit leader phase r).Sound leader := by
  obtain ⟨hempty, hnobody⟩ := h.fresh hstate
  obtain ⟨mc, ps, pars, assign, -, -, -, hfind, rfl⟩ := h.wired.dealt hr
  generalize hc₀ : ({ s.comp leader with state := .waiting, maximumCut := mc } : Computation) = c₀
  have hwaiting : c₀.state ≠ .computing := by simp [← hc₀]
  have hentry : ∀ k v, assign.find? k = some v → s.Known leader k := by
    intro k v hk
    exact h.mem_knownClients.mp (List.of_mem_zip ((hfind k v).mp hk)).1
  obtain ⟨hcut, hshare⟩ := c₀.onAssignment_of_not_computing (s.net leader) assign hwaiting
  rw [h.wired.networkId] at hcut hshare
  have hrec : ∀ k v, assign.find? k = some v →
      (c₀.onAssignment (s.net leader) assign).recorded k = v := by
    intro k v hk
    rw [Computation.onAssignment_recorded, hk, Option.getD_some]
  have hwork : ∀ k, assign.getAssignment k ≠ [] →
      (c₀.onAssignment (s.net leader) assign).recorded k ≠ [] := by
    intro k hk
    cases hfind : assign.find? k with
    | none =>
      rw [StackAssignment.getAssignment, hfind] at hk
      exact absurd rfl hk
    | some v =>
      rw [hrec k v hfind]
      rwa [StackAssignment.getAssignment, hfind] at hk
  have hnew : ∀ q ∈ (s.net leader).broadcastMsg (.stackAssignment assign false),
      q.destId ∈ (s.net leader).clients ∧ q.msg = .stackAssignment assign false :=
    fun q hq => Net.mem_broadcastMsg.mp hq
  refine h.of_send (fun q hq => (hnew q hq).1) ?_ ?_ ?_ ?_ ?_ ?_ ?_ ?_ ?_
  · intro hinitial
    rw [commit_comp_self] at hinitial
    have hcase := c₀.onAssignment_state (s.net leader) assign
    rw [show (c₀.onAssignment (s.net leader) assign).state = .initial from hinitial] at hcase
    simp at hcase
  · intro hidle
    rw [Computation.stack, hcut]
    change assign.getAssignment leader = []
    by_contra hne
    rw [hshare, if_neg hne] at hidle
    exact hidle rfl
  · intro _ k hk
    rcases Computation.onAssignment_listed _ _ _ hk with hk | hk | hk
    · obtain ⟨v, hv⟩ := Option.isSome_iff_exists.mp (StackAssignment.mem_getClients.mp hk)
      exact hentry k v hv
    · rw [← hc₀] at hk
      exact h.listed k hk
    · exact .inl (hk.trans (h.wired.networkId _))
  · intro q hq k v hv
    rw [Packet.write?, (hnew q hq).2] at hv
    exact hentry k v hv
  · intro q hq id hid
    rw [(hnew q hq).2] at hid
    cases hid
  · intro y hy
    left
    rw [recorded_commit_self]
    have hpackets : ∀ q ∈ (s.commit leader phase (c₀.onAssignment (s.net leader) assign,
        (s.net leader).broadcastMsg (.stackAssignment assign false))).packets,
        q.msg = .stackAssignment assign false := by
      intro q hq
      rw [commit_packets, hempty, List.nil_append, List.mem_map] at hq
      obtain ⟨q', hq', rfl⟩ := hq
      exact (hnew q' hq').2
    rcases hy with hy | ⟨q, hq, rfl, hq'⟩ | ⟨q, hq, -, -, best, hbest⟩
    · rcases eq_or_ne y leader with rfl | hne
      · rw [computing_commit_self, hshare] at hy
        split at hy
        · cases hy
        · rename_i hne
          exact hwork y hne
      · exact absurd ((computing_commit_of_ne _ _ _ hne).mp hy) (hnobody y)
    · rw [Packet.newWork, hpackets q hq] at hq'
      exact hwork q.dst hq'
    · rw [hpackets q hq] at hbest
      cases hbest
  · intro _ hne
    exact absurd hempty hne
  · intro q hq hdest
    exact absurd (hdest ▸ (hnew q hq).1) (h.wired.irrefl leader)
  · intro hended
    exfalso
    rcases hended with hfinished | ⟨q, hq, hterminate⟩
    · rw [commit_comp_self] at hfinished
      have hcase := c₀.onAssignment_state (s.net leader) assign
      rw [show (c₀.onAssignment (s.net leader) assign).state = .finished from hfinished] at hcase
      simp at hcase
    · rw [commit_packets, hempty, List.nil_append, List.mem_map] at hq
      obtain ⟨q', hq', rfl⟩ := hq
      have hmsg : q'.msg = .terminate := hterminate
      rw [(hnew q' hq').2] at hmsg
      cases hmsg

/-- A node that is told to end has nothing to do any more. -/
theorem Sound.terminate (h : s.Sound leader) (hnone : ∀ k, s.recorded leader k = [])
    (x : NetworkId) (phase : Phase) :
    (s.commit x phase ((s.comp x).onTerminate, [])).Sound leader := by
  have hsame : ∀ k, (s.commit x phase ((s.comp x).onTerminate, [])).recorded leader k =
      s.recorded leader k := by
    intro k
    rcases eq_or_ne leader x with rfl | hne
    · rw [recorded_commit_self]
      rfl
    · rw [recorded_commit_of_ne _ _ _ hne]
  refine h.of_send (by simp) ?_ ?_ ?_ (by simp) (by simp) ?_ ?_ (by simp) ?_
  · intro hinitial
    rcases eq_or_ne leader x with rfl | hne
    · rw [commit_comp_self] at hinitial
      cases hinitial
    · rw [commit_comp_of_ne _ _ _ hne] at hinitial
      exact ⟨hinitial, rfl, State.noConfusion⟩
  · intro _
    exact h.idle x fun hc => h.not_active hnone x (.inl hc)
  · rintro rfl k hk
    exact h.listed k hk
  · intro y hy
    have hactive : s.Active leader y := by
      cases hy with
      | inl hy =>
        rcases eq_or_ne y x with rfl | hne
        · rw [computing_commit_self] at hy
          cases hy
        · exact .inl ((computing_commit_of_ne _ _ _ hne).mp hy)
      | inr hy => exact .inr (by simpa [Awaits] using hy)
    exact absurd hactive (h.not_active hnone y)
  · intro _ _ k _ hk
    rwa [hsame]
  · intro _ k
    rw [hsame]
    exact hnone k

theorem Sound.connect (h : s.Sound leader) {id peer : NetworkId} (hne : id ≠ peer)
    (hnew : peer ∉ (s.net id).clients ∧ id ∉ (s.net peer).clients) :
    ((s.setClients id (peer :: (s.net id).clients)).setClients peer
      (id :: (s.net peer).clients)).Sound leader := by
  generalize ht : (s.setClients id (peer :: (s.net id).clients)).setClients peer
    (id :: (s.net peer).clients) = t
  have hcomp : t.comp = s.comp := by simp [← ht, setClients]
  have hpackets : t.packets = s.packets := by simp [← ht, setClients]
  have hpeer : t.net peer = { s.net peer with clients := id :: (s.net peer).clients } := by
    simp [← ht, setClients, hne.symm]
  have hid : t.net id = { s.net id with clients := peer :: (s.net id).clients } := by
    simp [← ht, setClients, hne]
  have hother : ∀ x, x ≠ id → x ≠ peer → t.net x = s.net x := by
    intro x hx hx'
    simp [← ht, setClients, hx, hx']
  have hmem : ∀ x y, y ∈ (t.net x).clients ↔ y ∈ (s.net x).clients ∨
      (x = peer ∧ y = id) ∨ (x = id ∧ y = peer) := by
    intro x y
    rcases eq_or_ne x peer with rfl | hx'
    · simp [hpeer, hne.symm, or_comm]
    · rcases eq_or_ne x id with rfl | hx
      · simp [hid, hx', or_comm]
      · simp [hother x hx hx', hx, hx']
  have hwired : t.Wired leader := by
    refine ⟨ht ▸ h.wired.toLinked.connect hne hnew, ?_⟩
    intro x y hy
    rw [hmem]
    rcases (hmem x y).mp hy with hy | ⟨rfl, rfl⟩ | ⟨rfl, rfl⟩
    · exact .inl (h.wired.symm x y hy)
    · exact .inr (.inr ⟨rfl, rfl⟩)
    · exact .inr (.inl ⟨rfl, rfl⟩)
  have hknown : ∀ k, s.Known leader k → t.Known leader k :=
    fun k hk => hk.imp_right fun hk => (hmem leader k).mpr (.inl hk)
  obtain ⟨-, hfresh, hidle, hroute, hlisted, hwrites, hrequests, hbacked, hassigned, hended⟩ := h
  refine ⟨hwired, ?_, ?_, ?_, ?_, ?_, ?_, ?_, ?_, ?_⟩
  · simpa only [hcomp, hpackets, Computing] using hfresh
  · simpa only [hcomp, Computing, stack] using hidle
  · rwa [hpackets]
  · rw [hcomp]
    exact fun k hk => hknown k (hlisted k hk)
  · rw [hpackets]
    exact fun q hq k v hv => hknown k (hwrites q hq k v hv)
  · rw [hpackets]
    exact fun q hq j hj => (hrequests q hq j hj).imp_left (hknown j)
  · simpa only [Active, Backed, Awaits, Computing, recorded, hcomp, hpackets] using hbacked
  · simpa only [Backed, recorded, hcomp, hpackets] using hassigned
  · simpa only [recorded, hcomp, hpackets] using hended

theorem sound_next {a : Action} (ha : s.Orderly leader a) (hstep : s.next a = some t)
    (h : s.Sound leader) : t.Sound leader := by
  cases move_of_next hstep with
  | @first id timeUp sync r hlive hr =>
    cases hr with
    | init hleads hstate hr =>
      obtain rfl := h.wired.eq_of_leads hleads
      exact h.init hstate hr .compute
    | check hleads hstate _ htable =>
      obtain rfl := h.wired.eq_of_leads hleads
      exact h.check hstate htable sync .compute
    | idle hcut _ _ hrecorded hlisted hstate =>
      rcases hstate with hstate | ⟨hleads, hinitial, hwaiting⟩
      · refine h.of_quiet ?_ (fun hc => hstate.symm.trans hc) (fun hi => hstate.symm.trans hi)
          (fun hf => hstate.symm.trans hf) hrecorded hlisted
        intro hidle
        rw [Computation.stack, hcut]
        exact h.idle id fun hc => hidle (hstate.trans hc)
      · refine h.of_quiet ?_ ?_ ?_ ?_ hrecorded hlisted
        · intro _
          rw [Computation.stack, hcut]
          apply h.idle id
          rw [Computing, hinitial]
          exact State.noConfusion
        · intro hc
          rw [hwaiting] at hc
          cases hc
        · exact fun _ => hinitial
        · intro hf
          rw [hwaiting] at hf
          cases hf
  | compute hr => exact h.compute hr
  | @receive id src pre post p r hpackets hfound herase hsrc hdst hr =>
    subst hsrc hdst
    have hdate := ha p hfound
    rw [herase] at hdate
    have hp := mem_of_read hpackets
    cases hmsg : p.msg with
    | stackAssignment assign resent =>
      rw [hmsg] at hr
      cases hr
      exact h.readAssignment hpackets hmsg hdate .read
    | assignmentFinished best =>
      rw [hmsg] at hr
      obtain ⟨c, hc, rfl⟩ := Option.map_eq_some_iff.mp hr
      exact h.readFinished hpackets hmsg hdate hc .read
    | terminate =>
      rw [hmsg] at hr
      cases hr
      have hnone := h.ended (.inr ⟨p, hp, hmsg⟩)
      have hdropped := h.drop hpackets fun k => by rw [Packet.write?, hmsg]
      exact hdropped.terminate hnone p.dst .read
    | divideWith id =>
      rw [hmsg] at hr
      cases hr
      obtain ⟨hknown, hne, hdst⟩ := h.requests p hp id hmsg
      have hdropped := h.drop hpackets fun k => by rw [Packet.write?, hmsg]
      exact hdropped.divide hknown hne fun hleads => absurd hleads hdst
  | @endRead id =>
    exact h.of_quiet (h.idle id) (fun hc => hc) (fun hi => hi) (fun hf => hf) (fun _ => rfl)
      fun _ hk => hk
  | connect hne hnew => exact h.connect hne hnew
  | crash => exact ha.elim
  | discard => exact ha.elim

theorem sound_of_start {members : Finset NetworkId} {matrix : Matrix}
    (h : Start members leader matrix s) : s.Sound leader where
  wired :=
    { toLinked := h.linked
      symm := fun x y hy => by
        obtain ⟨hx, hy, hne⟩ := (h.clients x y).mp hy
        exact (h.clients y x).mpr ⟨hy, hx, hne.symm⟩ }
  fresh _ := ⟨h.packets, fun x hx => by rw [Computing, h.comp] at hx; cases hx⟩
  idle x _ := by rw [stack, h.comp]; rfl
  route p hp := by rw [h.packets] at hp; cases hp
  listed k hk := by rw [h.comp] at hk; cases hk
  writes p hp := by rw [h.packets] at hp; cases hp
  requests p hp := by rw [h.packets] at hp; cases hp
  backed x hx := by
    rw [Active, Awaits, Computing, h.packets, h.comp] at hx
    rcases hx with hx | ⟨p, hp, -⟩ | ⟨p, hp, -⟩
    · cases hx
    · cases hp
    · cases hp
  assigned pre p post hsplit := by
    rw [h.packets] at hsplit
    simp at hsplit
  ended _ k := by rw [recorded, h.comp]; rfl

end System

end ParLib.Job
