import ParLib.PathSearch
import ParLib.Job.OrderlyRuns

/-!
# No unexplored work at termination

With fixed membership, every simple path has been popped somewhere, or lies
below a state on a stack or in new work on its way. In an orderly run the
leader ends the computation only when nobody has work.
-/

namespace ParLib.Job

set_option autoImplicit false

open Foundations ParallelStack

/-- Nobody joins and nobody fails. -/
def Action.Fixed : Action → Prop
  | .connect _ _ | .crash _ | .discard _ _ => False
  | .first _ _ _ | .compute _ | .receive _ _ | .endRead _ => True

instance : DecidablePred Action.Fixed
  | .connect _ _ | .crash _ | .discard _ _ => isFalse id
  | .first _ _ _ | .compute _ | .receive _ _ | .endRead _ => isTrue trivial

namespace System

/-- The leader is about to check its table and to end the computation. -/
def Terminates (s : System) (leader : NetworkId) : Prop :=
  s.atPhase leader .first = true ∧
    ((s.comp leader).state = .computing ∨ (s.comp leader).state = .waiting) ∧
    ∃ table ∈ (s.comp leader).currAssignment,
      (Computation.ClientSets.settled (s.net leader) table).noJobsLeft = true

instance (s : System) (leader : NetworkId) : Decidable (s.Terminates leader) :=
  inferInstanceAs (Decidable (_ ∧ _ ∧ _))

def Popped (s : System) (a : Path) : Prop := ∃ x, a ∈ (s.comp x).maximumCut.popped

/-- The state is on a stack or in new work on its way. -/
def Held (s : System) (a : Path) : Prop :=
  (∃ x, a ∈ s.stack x) ∨ ∃ p ∈ s.packets, a ∈ p.newWork

/-- Nobody's search is lost. -/
structure Covered (matrix : Matrix) (leader : NetworkId) (s : System) : Prop where
  matrix_eq : ∀ x, (s.comp x).maximumCut.matrix = matrix
  mesh : ∀ x y, s.Known leader x → s.Known leader y → y ≠ x → y ∈ (s.net x).clients
  accounts : (s.comp leader).state ≠ .initial →
    matrix.searchTree.Accounts matrix.IsSimplePath s.Popped s.Held

variable {matrix : Matrix} {leader : NetworkId} {s t : System}

theorem accounts_of_held {T : SearchTree Path} {b : Path} (h : t.Held b) :
    T.Accounts (T.Below b) t.Popped t.Held := fun _ ha => .inr ⟨b, h, ha⟩

theorem accounts_of_explored {mc mc' : MaximumCut} {ps : List Path} {b : Path}
    (h : MaximumCut.Explored mc mc' ps) (hb : b ∈ mc.states.data)
    (hpopped : ∀ a ∈ ps, t.Popped a) (hheld : ∀ a ∈ mc'.states.data, t.Held a) :
    mc.matrix.searchTree.Accounts (mc.matrix.searchTree.Below b) t.Popped t.Held := by
  intro a ha
  have hforest : a ∈ mc.matrix.searchTree.forest (mc.states.data : Multiset Path) :=
    (SearchTree.mem_forest _).mpr ⟨b, hb, (SearchTree.mem_descendants_iff ..).mpr ha⟩
  rw [h.forest, Multiset.mem_add, SearchTree.mem_forest] at hforest
  rcases hforest with hps | ⟨b', hb', hbelow⟩
  · exact .inl (hpopped a hps)
  · exact .inr ⟨b', hheld b' hb', (SearchTree.mem_descendants_iff ..).mp hbelow⟩

/-- What a step has to show that changes one node, reads `read` and sends. -/
theorem Covered.of_commit (h : s.Covered matrix leader) {rest : List Packet} {x : NetworkId}
    {phase : Phase} {r : Computation × List Send}
    (hmatrix : r.1.maximumCut.matrix = (s.comp x).maximumCut.matrix)
    (hpopped : ∀ a ∈ (s.comp x).maximumCut.popped, a ∈ r.1.maximumCut.popped)
    (hstarted : (s.comp leader).state = .initial →
      (({ s with packets := rest }.commit x phase r).comp leader).state = .initial)
    (hstack : ∀ b ∈ s.stack x, matrix.searchTree.Accounts (matrix.searchTree.Below b)
      ({ s with packets := rest }.commit x phase r).Popped
      ({ s with packets := rest }.commit x phase r).Held)
    (hread : ∀ p ∈ s.packets, p ∉ rest → ∀ b ∈ p.newWork,
      ({ s with packets := rest }.commit x phase r).Held b) :
    ({ s with packets := rest }.commit x phase r).Covered matrix leader := by
  generalize ht : ({ s with packets := rest } : System).commit x phase r = t
    at hstarted hstack hread ⊢
  have hself : t.comp x = r.1 := by rw [← ht, commit_comp_self]
  have hother : ∀ y, y ≠ x → t.comp y = s.comp y := by
    intro y hy
    rw [← ht, commit_comp_of_ne _ _ _ hy]
  have hnet : t.net = s.net := by rw [← ht, commit_net]
  refine ⟨?_, ?_, ?_⟩
  · intro y
    rcases eq_or_ne y x with rfl | hy
    · rw [hself, hmatrix, h.matrix_eq]
    · rw [hother y hy, h.matrix_eq]
  · intro y z hy hz
    rw [hnet]
    exact h.mesh y z (hy.of_net hnet.symm) (hz.of_net hnet.symm)
  · intro hstate
    refine (h.accounts fun hinitial => hstate (hstarted hinitial)).mono ?_ ?_
    · rintro a ⟨y, hy⟩
      rcases eq_or_ne y x with rfl | hne
      · exact ⟨y, hself ▸ hpopped a hy⟩
      · exact ⟨y, (hother y hne).symm ▸ hy⟩
    · rintro b (⟨y, hy⟩ | ⟨p, hp, hb⟩)
      · rcases eq_or_ne y x with rfl | hne
        · exact hstack b hy
        · refine accounts_of_held (.inl ⟨y, ?_⟩)
          rwa [stack, hother y hne]
      · by_cases hrest : p ∈ rest
        · refine accounts_of_held (.inr ⟨p, ?_, hb⟩)
          rw [← ht, commit_packets]
          exact List.mem_append_left _ hrest
        · exact accounts_of_held (hread p hp hrest b hb)

section Steps

variable {x : NetworkId} {phase : Phase}

/-- A step that leaves the stack alone and reads no new work. -/
theorem Covered.of_same_stack (h : s.Covered matrix leader) {rest : List Packet}
    {r : Computation × List Send} (hcut : r.1.maximumCut = (s.comp x).maximumCut)
    (hstarted : (s.comp leader).state = .initial →
      (({ s with packets := rest }.commit x phase r).comp leader).state = .initial)
    (hread : ∀ p ∈ s.packets, p ∉ rest → p.newWork = []) :
    ({ s with packets := rest }.commit x phase r).Covered matrix leader := by
  refine h.of_commit (by rw [hcut]) (fun a ha => by rwa [hcut]) hstarted ?_ ?_
  · intro b hb
    refine accounts_of_held (.inl ⟨x, ?_⟩)
    rwa [stack_commit_self, Computation.stack, hcut]
  · intro p hp hrest b hb
    rw [hread p hp hrest] at hb
    cases hb

/-- Both halves of a divided stack stay held. -/
theorem Covered.divide (h : s.Covered matrix leader) {client : NetworkId}
    (hid : (s.net x).networkId = x) (hself : x ∉ (s.net x).clients)
    (hclient : s.stack x ≠ [] → client ∈ (s.net x).clients)
    (hstarted : (s.comp leader).state ≠ .initial) :
    (s.commit x phase ((s.comp x).onDivideWith (s.net x) client)).Covered matrix leader := by
  by_cases hwork : s.stack x = []
  · rw [Computation.onDivideWith_of_nil _ _ hwork]
    exact h.of_same_stack rfl (fun hi => absurd hi hstarted) fun p hp hrest => absurd hp hrest
  have hne : client ≠ (s.net x).networkId := by
    rw [hid]
    rintro rfl
    exact hself (hclient hwork)
  obtain ⟨c, heq, -, hcut, -⟩ := Computation.onDivideWith_spec hne hwork
  rw [heq]
  refine h.of_commit (by rw [hcut]; rfl) (fun a ha => by rw [hcut]; exact ha)
    (fun hi => absurd hi hstarted) ?_ fun p hp hrest => absurd hp hrest
  intro b hb
  apply accounts_of_held
  cases mem_newDataA_or_newDataB.mpr hb with
  | inl hb =>
    left
    refine ⟨x, ?_⟩
    rw [stack_commit_self, Computation.stack, hcut]
    exact hb
  | inr hb =>
    right
    refine ⟨⟨x, client, .stackAssignment
      (Computation.dividedAssignment (s.net x) client (s.comp x).stack) false⟩, ?_, ?_⟩
    · exact mem_commit_packets.mpr (.inr ⟨⟨client, _⟩,
        Net.mem_broadcastMsg.mpr ⟨hclient hwork, rfl⟩, rfl⟩)
    · change b ∈ StackAssignment.getAssignment _ client
      rw [StackAssignment.getAssignment, Computation.find?_dividedAssignment, if_pos rfl]
      exact hb

/-- The shares that the leader deals out hold all that its first steps left over. -/
theorem Covered.init (h : s.Covered matrix leader) (hsound : s.Sound leader)
    {r : Computation × List Send} (hstate : (s.comp leader).state = .initial)
    (hr : { s.comp leader with state := .waiting }.initLeaderStep (s.net leader) = some r) :
    (s.commit leader phase r).Covered matrix leader := by
  obtain ⟨hempty, hnobody⟩ := hsound.fresh hstate
  obtain ⟨mc, ps, pars, assign, hexplored, hpars, hlen, hfind, rfl⟩ := hsound.wired.dealt hr
  have hmatrix : mc.matrix = matrix := hexplored.matrix.trans (h.matrix_eq leader)
  generalize hc₀ : ({ s.comp leader with state := .waiting, maximumCut := mc } : Computation) = c₀
  have hwaiting : c₀.state ≠ .computing := by simp [← hc₀]
  obtain ⟨hcut, -⟩ := c₀.onAssignment_of_not_computing (s.net leader) assign hwaiting
  rw [hsound.wired.networkId, ← hc₀] at hcut
  generalize hc : c₀.onAssignment (s.net leader) assign = c
  rw [hc₀, hc] at hcut
  generalize ht : s.commit leader phase
    (c, (s.net leader).broadcastMsg (.stackAssignment assign false)) = t
  have hcomp : t.comp leader = c := by rw [← ht, commit_comp_self]
  have hother : ∀ y, y ≠ leader → t.comp y = s.comp y := by
    intro y hy
    rw [← ht, commit_comp_of_ne _ _ _ hy]
  have hnet : t.net = s.net := by rw [← ht, commit_net]
  have hshare : ∀ k states, assign.find? k = some states → ∀ b ∈ states, t.Held b := by
    intro k states hk b hb
    have hget : assign.getAssignment k = states := by
      rw [StackAssignment.getAssignment, hk, Option.getD_some]
    rcases eq_or_ne k leader with rfl | hne
    · left
      refine ⟨k, ?_⟩
      rw [stack, hcomp, Computation.stack, hcut]
      change b ∈ assign.getAssignment k
      rwa [hget]
    · right
      have hknown := (List.of_mem_zip ((hfind k states).mp hk)).1
      have hclient : k ∈ (s.net leader).clients :=
        (hsound.mem_knownClients.mp hknown).resolve_left hne
      refine ⟨⟨leader, k, .stackAssignment assign false⟩, ?_, ?_⟩
      · rw [← ht]
        exact mem_commit_packets.mpr (.inr ⟨⟨k, _⟩, Net.mem_broadcastMsg.mpr ⟨hclient, rfl⟩, rfl⟩)
      · change b ∈ assign.getAssignment k
        rwa [hget]
  refine ⟨?_, ?_, ?_⟩
  · intro y
    rcases eq_or_ne y leader with rfl | hy
    · rw [hcomp, hcut, ← hc₀]
      exact hmatrix
    · rw [hother y hy, h.matrix_eq]
  · intro y z hy hz
    rw [hnet]
    exact h.mesh y z (hy.of_net hnet.symm) (hz.of_net hnet.symm)
  · intro _ a ha
    have hroots : (s.comp leader).maximumCut.populateStates.states.data = matrix.roots := by
      have hnil : (s.comp leader).maximumCut.states.data = [] := hsound.idle leader (hnobody leader)
      rw [MaximumCut.populateStates_data, hnil, h.matrix_eq, List.nil_append, Matrix.roots]
    have hforest := hexplored.forest
    rw [hroots] at hforest
    change (s.comp leader).maximumCut.matrix.searchTree.forest _ =
      _ + (s.comp leader).maximumCut.matrix.searchTree.forest _ at hforest
    rw [h.matrix_eq] at hforest
    have hmem := Matrix.mem_forest_roots.mpr ha
    rw [hforest, Multiset.mem_add, SearchTree.mem_forest] at hmem
    rcases hmem with hps | ⟨b, hb, hbelow⟩
    · refine .inl ⟨leader, ?_⟩
      rw [hcomp, hcut, ← hc₀]
      change a ∈ mc.popped
      rw [hexplored.popped]
      exact List.mem_append_right _ hps
    · refine .inr ⟨b, ?_, (SearchTree.mem_descendants_iff ..).mp hbelow⟩
      obtain ⟨par, hpar, hb⟩ := mem_getParallelStacks.mpr hb
      rw [← hpars, ← List.map_snd_zip hlen.ge, List.mem_map] at hpar
      obtain ⟨⟨k, par⟩, hzip, rfl⟩ := hpar
      exact hshare k par.data ((hfind k par.data).mpr hzip) b hb

theorem Covered.check (h : s.Covered matrix leader) (hsound : s.Sound leader)
    {table : StackAssignment} (htable : (s.comp leader).currAssignment = some table)
    (hstarted : (s.comp leader).state ≠ .initial) (sync : Bool) :
    (s.commit leader phase ((s.comp leader).checkTable (s.net leader) table sync)).Covered matrix
      leader := by
  have hchecked : ((s.comp leader).checked (s.net leader) table).state ≠ .initial := by
    rcases (s.comp leader).checked_state (s.net leader) table with hstate | ⟨hstate, -⟩
    · rwa [hstate]
    · rw [hstate]
      exact State.noConfusion
  refine (checkTable_induction
    (P := fun s' => s'.Covered matrix leader ∧ (s'.comp leader).state ≠ .initial)
    (hsound.wired.networkId leader) sync (hsound.connected htable) ?_ ?_ ?_).1
  · intro sent _
    refine ⟨h.of_same_stack rfl (fun hi => absurd hi hstarted)
      fun p hp hrest => absurd hp hrest, ?_⟩
    rw [commit_comp_self]
    exact hchecked
  · rintro s' client hnet ⟨h', hstarted'⟩ - hclient hne -
    have hid : (s'.net leader).networkId = leader := by rw [hnet, hsound.wired.networkId]
    have hirrefl : leader ∉ (s'.net leader).clients := by
      rw [hnet]
      exact hsound.wired.irrefl leader
    refine ⟨h'.divide hid hirrefl ?_ hstarted', ?_⟩
    · intro _
      rw [hnet]
      exact (hsound.mem_knownClients.mp hclient).resolve_left hne
    · rw [commit_comp_self]
      rw [← hid] at hne
      cases (s'.comp leader).onDivideWith_state hne with
      | inl hsame => rwa [hsame]
      | inr hsame =>
        rw [hsame]
        exact State.noConfusion
  · rintro s' sent - ⟨h', hstarted'⟩ -
    refine ⟨h'.of_same_stack rfl (fun hi => absurd hi hstarted')
      fun p hp hrest => absurd hp hrest, ?_⟩
    rwa [commit_comp_self]

theorem Covered.compute (h : s.Covered matrix leader) (hsound : s.Sound leader)
    {r : Computation × List Send} (hr : (s.comp x).computeStep (s.net x) = some r) :
    (s.commit x phase r).Covered matrix leader := by
  obtain ⟨mc, ps, hexplored, hcase⟩ := Computation.computeStep_eq_some hr
  have hcut : r.1.maximumCut = mc := by
    rcases hcase with rfl | ⟨-, -, -, hcut, -⟩
    · rfl
    · exact hcut
  have hmatrix : (s.comp x).maximumCut.matrix = matrix := h.matrix_eq x
  refine h.of_commit (by rw [hcut, hexplored.matrix]) ?_ ?_ ?_
    fun p hp hrest => absurd hp hrest
  · intro a ha
    rw [hcut, hexplored.popped]
    exact List.mem_append_left _ ha
  · intro hinitial
    rcases eq_or_ne leader x with rfl | hne
    · rw [commit_comp_self]
      rcases hcase with rfl | ⟨hcomputing, -⟩
      · exact hinitial
      · exact absurd hcomputing ((hsound.fresh hinitial).2 leader)
    · rwa [commit_comp_of_ne _ _ _ hne]
  · intro b hb
    rw [← hmatrix]
    refine accounts_of_explored hexplored hb ?_ ?_
    · intro a ha
      refine ⟨x, ?_⟩
      rw [commit_comp_self, hcut, hexplored.popped]
      exact List.mem_append_right _ ha
    · intro a ha
      refine .inl ⟨x, ?_⟩
      rwa [stack_commit_self, Computation.stack, hcut]

/-- A node that waits takes up its share, and one that computes is sent none. -/
theorem Covered.readAssignment (h : s.Covered matrix leader) (hsound : s.Sound leader)
    {pre post : List Packet} {p : Packet} (hpackets : s.packets = pre ++ p :: post)
    {assign : StackAssignment} {resent : Bool} (hmsg : p.msg = .stackAssignment assign resent)
    (hdate : s.Computing p.dst → p.newWork = []) (hstarted : (s.comp leader).state ≠ .initial) :
    (({ s with packets := pre ++ post } : System).commit p.dst phase
      ((s.comp p.dst).onAssignment (s.net p.dst) assign, [])).Covered matrix leader := by
  by_cases hcomputing : s.Computing p.dst
  · refine h.of_same_stack ?_ (fun hi => absurd hi hstarted) ?_
    · exact (Computation.onAssignment_of_computing _ _ _ hcomputing).1
    · intro q hq hrest
      rw [eq_of_not_mem_rest hpackets hq hrest]
      exact hdate hcomputing
  · obtain ⟨hcut, -⟩ := (s.comp p.dst).onAssignment_of_not_computing (s.net p.dst) assign
      hcomputing
    rw [hsound.wired.networkId] at hcut
    refine h.of_commit (by rw [hcut]; rfl) (fun a ha => by rw [hcut]; exact ha)
      (fun hi => absurd hi hstarted) ?_ ?_
    · intro b hb
      rw [hsound.idle p.dst hcomputing] at hb
      cases hb
    · intro q hq hrest b hb
      rw [eq_of_not_mem_rest hpackets hq hrest, Packet.newWork, hmsg] at hb
      refine .inl ⟨p.dst, ?_⟩
      rw [stack_commit_self, Computation.stack, hcut]
      cases resent with
      | false => exact hb
      | true => cases hb

end Steps

theorem covered_next {a : Action} (ha : s.Orderly leader a) (hfixed : a.Fixed)
    (hstep : s.next a = some t) (hsound : s.Sound leader) (h : s.Covered matrix leader) :
    t.Covered matrix leader := by
  cases move_of_next hstep with
  | @first id timeUp sync r hlive hr =>
    cases hr with
    | init hleads hstate hr =>
      obtain rfl := hsound.wired.eq_of_leads hleads
      exact h.init hsound hstate hr
    | check hleads hstate _ htable =>
      obtain rfl := hsound.wired.eq_of_leads hleads
      have hstarted : (s.comp id).state ≠ .initial := by
        rcases hstate with hstate | hstate <;> simp [hstate]
      exact h.check hsound htable hstarted sync
    | idle hcut _ _ _ _ hstate =>
      refine h.of_same_stack hcut ?_ fun p hp hrest => absurd hp hrest
      intro hinitial
      rcases eq_or_ne leader id with rfl | hne
      · rw [commit_comp_self]
        rcases hstate with hstate | ⟨hleads, -⟩
        · exact hstate.trans hinitial
        · rw [hsound.wired.leads] at hleads
          simp at hleads
      · rwa [commit_comp_of_ne _ _ _ hne]
  | compute hr => exact h.compute hsound hr
  | @receive id src pre post p r hpackets hfound herase hsrc hdst hr =>
    subst hsrc hdst
    have hdate := ha p hfound
    rw [herase] at hdate
    have hp := mem_of_read hpackets
    have hstarted : (s.comp leader).state ≠ .initial := by
      intro hinitial
      rw [(hsound.fresh hinitial).1] at hp
      cases hp
    cases hmsg : p.msg with
    | stackAssignment assign resent =>
      rw [hmsg] at hr
      cases hr
      simp only [UpToDate, hmsg] at hdate
      exact h.readAssignment hsound hpackets hmsg hdate.1 hstarted
    | assignmentFinished best =>
      rw [hmsg] at hr
      obtain ⟨c, hc, rfl⟩ := Option.map_eq_some_iff.mp hr
      refine h.of_same_stack (Computation.onAssignmentFinished_eq_some hc).2.2.1
        (fun hi => absurd hi hstarted) ?_
      intro q hq hrest
      rw [eq_of_not_mem_rest hpackets hq hrest, Packet.newWork, hmsg]
    | terminate =>
      rw [hmsg] at hr
      cases hr
      apply h.of_same_stack rfl (fun hi => absurd hi hstarted)
      intro q hq hrest
      rw [eq_of_not_mem_rest hpackets hq hrest, Packet.newWork, hmsg]
    | divideWith client =>
      rw [hmsg] at hr
      cases hr
      obtain ⟨hknown, hne, hdst⟩ := hsound.requests p hp client hmsg
      have hdropped : ({ s with packets := pre ++ post } : System).Covered matrix leader := by
        rw [← commit_same ({ s with packets := pre ++ post } : System) p.dst]
        apply h.of_same_stack rfl (fun hi => absurd hi hstarted)
        intro q hq hrest
        rw [eq_of_not_mem_rest hpackets hq hrest, Packet.newWork, hmsg]
      refine hdropped.divide (hsound.wired.networkId _) (hsound.wired.irrefl _) ?_ hstarted
      intro hwork
      have hcomputing : s.Computing p.dst :=
        not_not.mp fun hidle => hwork (hsound.idle p.dst hidle)
      exact h.mesh p.dst client (hsound.known_of_active (.inl hcomputing)) hknown hne
  | @endRead id =>
    refine h.of_same_stack rfl ?_ fun p hp hrest => absurd hp hrest
    intro hinitial
    rcases eq_or_ne leader id with rfl | hne
    · rwa [commit_comp_self]
    · rwa [commit_comp_of_ne _ _ _ hne]
  | connect hne hnew => exact hfixed.elim
  | crash => exact ha.elim
  | discard => exact ha.elim

theorem covered_of_start {members : Finset NetworkId} (h : Start members leader matrix s) :
    s.Covered matrix leader where
  matrix_eq x := by rw [h.comp]; rfl
  mesh x y hx hy hne := by
    have hmember : ∀ z, s.Known leader z → z ∈ members := by
      rintro z (rfl | hz)
      · exact h.leader_mem
      · exact ((h.clients leader z).mp hz).2.1
    exact (h.clients x y).mpr ⟨hmember x hx, hmember y hy, hne⟩
  accounts hstate := by
    rw [h.comp] at hstate
    exact absurd rfl hstate

theorem Sound.not_active_of_terminates (h : s.Sound leader) (hend : s.Terminates leader)
    (x : NetworkId) : ¬ s.Active leader x := by
  obtain ⟨-, -, table, htable, hjobs⟩ := hend
  refine h.not_active ?_ x
  intro k
  rw [recorded_of_table htable]
  exact Computation.ClientSets.getAssignment_of_noJobsLeft hjobs k

theorem Sound.not_held_of_terminates (h : s.Sound leader) (hend : s.Terminates leader)
    (b : Path) : ¬ s.Held b := by
  have hidle := h.not_active_of_terminates hend
  rintro (⟨x, hx⟩ | ⟨p, hp, hb⟩)
  · rw [h.idle x fun hcomputing => hidle x (.inl hcomputing)] at hx
    cases hx
  · exact hidle p.dst (.inr (.inl ⟨p, hp, rfl, List.ne_nil_of_mem hb⟩))

theorem no_unexplored_work_at_termination {members : Finset NetworkId} {start : System}
    (hstart : Start members leader matrix start)
    (hrun : Run next (fun s a => s.Orderly leader a ∧ a.Fixed) start s)
    (hend : s.Terminates leader) {a : Path} (ha : matrix.IsSimplePath a) : s.Popped a := by
  have hinv : s.Sound leader ∧ s.Covered matrix leader := by
    refine hrun.invariant (P := fun s => s.Sound leader ∧ s.Covered matrix leader)
      ⟨sound_of_start hstart, covered_of_start hstart⟩ ?_
    rintro t a u ⟨hsound, hcovered⟩ ⟨horderly, hfixed⟩ hstep
    exact ⟨sound_next horderly hstep hsound,
      covered_next horderly hfixed hstep hsound hcovered⟩
  have hstarted : (s.comp leader).state ≠ .initial := by
    obtain ⟨-, hstate | hstate, -⟩ := hend <;> simp [hstate]
  exact (hinv.2.accounts hstarted).explored_of_none_held
    (hinv.1.not_held_of_terminates hend) ha

/-- "B" deals, "A" works off its share, and "B" hears of it. -/
def sharedRun : List Action :=
  [.first idB false false, .compute idB, .endRead idB,
    .first idA false false, .compute idA, .receive idA idB, .endRead idA,
    .first idA false false, .compute idA, .first idB true true, .compute idB,
    .receive idB idA, .endRead idB]

theorem no_unexplored_work_of_two_nodes :
    ∃ s, Run next (fun s a => s.Orderly idB a ∧ a.Fixed)
        (.initial [idA, idB] idB fourClique) s ∧
      s.Terminates idB ∧ ∀ a, fourClique.IsSimplePath a → s.Popped a := by
  have hstart : Start [idA, idB].toFinset idB fourClique _ :=
    start_initial (by decide) (by decide) fourClique
  obtain ⟨s, hs⟩ : ∃ s, runWhile next (fun s a => s.Orderly idB a ∧ a.Fixed)
      (.initial [idA, idB] idB fourClique) sharedRun = some s :=
    Option.isSome_iff_exists.mp (by decide +kernel)
  have hrun := Run.of_runWhile hs
  have hend : s.Terminates idB := by
    have hcheck : ∀ t ∈ runWhile next (fun s a => s.Orderly idB a ∧ a.Fixed)
      (.initial [idA, idB] idB fourClique) sharedRun, t.Terminates idB := by decide +kernel
    exact hcheck s hs
  exact ⟨s, hrun, hend, fun a ha => no_unexplored_work_at_termination hstart hrun hend ha⟩

/-- "B" is asked twice to divide with "A", which has not read the first half when "C"
ends the computation. -/
def dividedTwiceRun : List Action :=
  [.first idC false false, .compute idC, .endRead idC,
    .first idA false false, .compute idA, .receive idA idC, .endRead idA,
    .first idB false false, .compute idB, .receive idB idC,
    .first idA false false, .compute idA,
    .first idC false false, .compute idC, .receive idC idA, .endRead idC,
    .first idC true false, .compute idC, .endRead idC, .first idC true false, .compute idC,
    .receive idB idC, .receive idB idC, .receive idB idC, .endRead idB,
    .first idB false false, .compute idB,
    .receive idC idB, .receive idC idB, .receive idC idB, .endRead idC]

theorem second_division_hides_unexplored_work :
    ¬ ∀ (matrix : Matrix) (members : Finset NetworkId) (leader : NetworkId) (start s : System),
      1 ≤ matrix.size → Start members leader matrix start →
      Run next (fun _ a => a.Fixed) start s → s.Terminates leader →
      ∀ a, matrix.IsSimplePath a → s.Popped a := by
  intro h
  have hstart : Start [idA, idB, idC].toFinset idC fourClique _ :=
    start_initial (by decide) (by decide) fourClique
  have hchecked : ∀ t ∈ runActions next (.initial [idA, idB, idC] idC fourClique)
      dividedTwiceRun, t.Terminates idC ∧
      ∀ x ∈ [idA, idB, idC], [1, 3, 4] ∉ (t.comp x).maximumCut.popped := by
    decide +kernel
  obtain ⟨s, hs⟩ : ∃ s, runActions next (.initial [idA, idB, idC] idC fourClique)
      dividedTwiceRun = some s := Option.isSome_iff_exists.mp (by decide +kernel)
  obtain ⟨hend, hunpopped⟩ := hchecked s hs
  obtain ⟨x, hx⟩ := h fourClique _ idC _ s (by decide) hstart
    (.of_runActions hs (by simp [dividedTwiceRun, Action.Fixed])) hend [1, 3, 4] (by decide)
  by_cases hmember : x ∈ [idA, idB, idC]
  · exact hunpopped x hmember hx
  · have hidle : ∀ a ∈ dividedTwiceRun, x ≠ a.node := by
      have hnodes : ∀ a ∈ dividedTwiceRun, a.node ∈ [idA, idB, idC] := by decide
      intro a ha hxa
      exact hmember (hxa ▸ hnodes a ha)
    rw [comp_of_runActions hs hidle] at hx
    cases hx

end System

end ParLib.Job
