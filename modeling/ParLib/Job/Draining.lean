import ParLib.SearchCalls
import ParLib.Job.Answer
import ParLib.Job.FixedRuns

/-!
# Working off what there is

Jobs can be worked off and messages read until there are none. If nothing is read while
somebody computes, no division is carried out, and every piece of work takes something
off a finite load.
-/

namespace ParLib.Job

set_option autoImplicit false

open Foundations

/-- What a job takes: its states, and the announcements of its end. -/
def jobLoad (M : Matrix) (count : Nat) (states : List Path) : Nat :=
  if states = [] then 0 else (M.searchTree.forest states).card + count + 1

def Packet.load (M : Matrix) (count : Nat) (p : Packet) : Nat :=
  match p.msg with
  | .stackAssignment assign _ => jobLoad M count (assign.getAssignment p.dst) + 1
  | .assignmentFinished _ | .terminate | .divideWith _ => 1

def Computation.load (count : Nat) (c : Computation) : Nat :=
  if c.state = .computing then c.maximumCut.pendingStates + count + 1 else 0

namespace System

variable {members : Finset NetworkId} {leader x : NetworkId} {M : Matrix} {s t : System}

def load (members : Finset NetworkId) (M : Matrix) (s : System) : Nat :=
  s.total members (Computation.load members.card) (Packet.load M members.card)

theorem load_commit (M : Matrix) (s : System) (hx : x ∈ members) (rest : List Packet)
    (phase : Phase) (c : Computation) (sent : List Send) :
    (({ s with packets := rest } : System).commit x phase (c, sent)).load members M +
        (s.comp x).load members.card =
      ∑ y ∈ members, (s.comp y).load members.card + c.load members.card +
        ((rest.map (Packet.load M members.card)).sum +
          (sent.map fun q => Packet.load M members.card ⟨x, q.destId, q.msg⟩).sum) :=
  total_commit s hx _ _ rest phase c sent

theorem load_send (M : Matrix) (s : System) (hx : x ∈ members) (phase : Phase) (c : Computation)
    (sent : List Send) : (s.commit x phase (c, sent)).load members M +
        (s.comp x).load members.card =
      s.load members M + c.load members.card +
        (sent.map fun q => Packet.load M members.card ⟨x, q.destId, q.msg⟩).sum :=
  total_send s hx _ _ phase c sent

/-- Nobody has finished, and nobody is about to be told to. -/
structure Open (members : Finset NetworkId) (s : System) : Prop where
  unfinished : ∀ x ∈ members, (s.comp x).state ≠ .finished
  unended : ∀ p ∈ s.packets, p.msg ≠ .terminate

/-- Members go round without a check; they read only when nobody computes, and what was
sent first. -/
def Draining (members : Finset NetworkId) (leader : NetworkId) (s : System) (a : Action) : Prop :=
  a.node ∈ members ∧
    match a with
    | .first id timeUp _ => timeUp = false ∧ (id = leader → (s.comp leader).state ≠ .initial)
    | .compute _ | .endRead _ => True
    | .receive id src =>
      (∀ x, ¬ s.Computing x) ∧ ∃ p rest, s.packets = p :: rest ∧ p.src = src ∧ p.dst = id
    | .connect _ _ | .crash _ | .discard _ _ => False

theorem Draining.fixed {a : Action} (h : s.Draining members leader a) : a.Fixed := by
  cases a with
  | first | compute | receive | endRead => trivial
  | connect | crash | discard => exact h.2

theorem fixed_of_draining (hrun : Run System.next (Draining members leader) s t) :
    Run System.next (fun _ a => a.Fixed) s t := hrun.mono fun _ _ ha => ha.fixed

/-- The action takes something off the load. -/
def Works (s : System) : Action → Prop
  | .compute id => s.Computing id
  | .receive _ _ => True
  | .first _ _ _ | .endRead _ | .connect _ _ | .crash _ | .discard _ _ => False

/-- What a step can be that drains the system. -/
inductive Drains (members : Finset NetworkId) (s : System) (a : Action) : System → Prop
  | idle {x : NetworkId} {phase : Phase} {c : Computation} (hworks : ¬ s.Works a) (hx : x ∈ members)
      (hstack : c.stack = s.stack x) (hmatrix : c.maximumCut.matrix = (s.comp x).maximumCut.matrix)
      (hrecorded : ∀ k, c.recorded k = s.recorded x k)
      (hstate : c.state = (s.comp x).state ∨ (s.comp x).state = .initial ∧ c.state = .waiting) :
      Drains members s a (s.commit x phase (c, []))
  | explore {x : NetworkId} {mc : MaximumCut} {ps : List Path} (hworks : s.Works a)
      (hx : x ∈ members)
      (hcomputing : s.Computing x) (hexplored : MaximumCut.Explored (s.comp x).maximumCut mc ps)
      (hps : ps ≠ []) :
      Drains members s a (s.commit x .read ({ s.comp x with maximumCut := mc }, []))
  | finish {x : NetworkId} {r : Computation × List Send} {best : Int32} (hworks : s.Works a)
      (hx : x ∈ members)
      (hcomputing : s.Computing x) (hstate : r.1.state = .waiting)
      (hsent : r.2 = (s.net x).broadcastMsg (.assignmentFinished best))
      (hrecorded : ∀ k, r.1.recorded k = if k = x then [] else s.recorded x k) :
      Drains members s a (s.commit x .read r)
  | take {p : Packet} {rest : List Packet} {assign : StackAssignment} {resent : Bool}
      (hworks : s.Works a) (hidle : ∀ x, ¬ s.Computing x) (hpackets : s.packets = p :: rest)
      (hmsg : p.msg = .stackAssignment assign resent) :
      Drains members s a (({ s with packets := rest } : System).commit p.dst .read
        ((s.comp p.dst).onAssignment (s.net p.dst) assign, []))
  | hear {p : Packet} {rest : List Packet} {c : Computation} {best : Int32}
      (hworks : s.Works a) (hidle : ∀ x, ¬ s.Computing x) (hpackets : s.packets = p :: rest)
      (hmsg : p.msg = .assignmentFinished best) (hstate : c.state = (s.comp p.dst).state)
      (hcut : c.maximumCut = (s.comp p.dst).maximumCut)
      (hrecorded : ∀ k, c.recorded k = if k = p.src then [] else s.recorded p.dst k) :
      Drains members s a (({ s with packets := rest } : System).commit p.dst .read (c, []))
  | decline {p : Packet} {rest : List Packet} {client : NetworkId}
      (hworks : s.Works a) (hidle : ∀ x, ¬ s.Computing x) (hpackets : s.packets = p :: rest)
      (hmsg : p.msg = .divideWith client) :
      Drains members s a
        (({ s with packets := rest } : System).commit p.dst .read (s.comp p.dst, []))

theorem Open.stack_eq_nil (h : s.Open members) (hregular : s.Regular members leader)
    (hx : x ∈ members) (hidle : ¬ s.Computing x) : s.stack x = [] := by
  by_contra hwork
  cases (hregular.fit x).works hwork with
  | inl hcomputing => exact hidle hcomputing
  | inr hfinished => exact h.unfinished x hx hfinished

theorem drains_of_next {a : Action} (h : s.Open members) (hregular : s.Regular members leader)
    (ha : s.Draining members leader a) (hstep : s.next a = some t) :
    s.Drains members a t := by
  obtain ⟨hx, hkind⟩ := ha
  cases move_of_next hstep with
  | @first id timeUp sync r hlive hr =>
    obtain ⟨rfl, hdealt⟩ := hkind
    cases hr with
    | init hleads hstate hr =>
      obtain rfl := hregular.mesh.eq_of_leads hleads
      exact absurd hstate (hdealt rfl)
    | check hleads hstate htime htable => cases htime
    | idle hcut _ _ hrecorded _ hstate =>
      refine .idle (fun hworks => hworks) hx (by rw [Computation.stack, hcut]; rfl) (by rw [hcut])
        hrecorded ?_
      exact hstate.imp_right fun h => h.2
  | @compute id r hr =>
    rw [Computation.computeStep] at hr
    split at hr
    · cases hr
    · rename_i done mc hcompute
      obtain ⟨ps, hexplored, -, hpopped⟩ := MaximumCut.compute_explored hcompute
      dsimp only at hr
      split at hr
      · rename_i hdone
        obtain ⟨c, hc, rfl⟩ := Option.map_eq_some_iff.mp hr
        have hrecorded := (Computation.onAssignmentFinished_eq_some hc).1
        rw [hregular.mesh.networkId] at hrecorded
        exact .finish hdone.2 hx hdone.2 rfl rfl hrecorded
      · rename_i hdone
        cases hr
        by_cases hcomputing : s.Computing id
        · refine .explore hcomputing hx hcomputing hexplored (hpopped ?_)
          exact Bool.eq_false_iff.mpr fun htrue => hdone ⟨htrue, hcomputing⟩
        · have hnil : s.stack id = [] := h.stack_eq_nil hregular hx hcomputing
          refine .idle hcomputing hx ?_ hexplored.matrix (fun _ => rfl) (.inl rfl)
          rw [hnil]
          exact (hexplored.of_nil hnil).2.1
  | @receive id src pre post p r hpackets hfound herase hsrc hdst hr =>
    obtain ⟨hidle, q, rest, hfirst, hqsrc, hqdst⟩ := hkind
    have hhead : s.packets.find? (Packet.onConnection src id) = some q := by
      rw [hfirst, List.find?_cons_of_pos (by simp [Packet.onConnection, hqsrc, hqdst])]
    obtain rfl : q = p := Option.some.inj (hhead.symm.trans hfound)
    have hrest : pre ++ post = rest := by
      rw [← herase, hfirst, List.eraseP_cons_of_pos (by simp [Packet.onConnection, hqsrc, hqdst])]
    subst hsrc hdst
    rw [hrest]
    have hq := mem_of_read hpackets
    cases hmsg : q.msg with
    | stackAssignment assign resent =>
      rw [hmsg] at hr
      cases hr
      exact .take trivial hidle hfirst hmsg
    | assignmentFinished best =>
      rw [hmsg] at hr
      obtain ⟨c, hc, rfl⟩ := Option.map_eq_some_iff.mp hr
      obtain ⟨hrecorded, -, hcut, hstate, -⟩ := Computation.onAssignmentFinished_eq_some hc
      exact .hear trivial hidle hfirst hmsg hstate hcut hrecorded
    | terminate => exact absurd hmsg (h.unended q hq)
    | divideWith client =>
      rw [hmsg] at hr
      cases hr
      have hnil := h.stack_eq_nil hregular (hregular.mem_of_packet hq).2.1 (hidle q.dst)
      rw [Computation.onDivideWith_of_nil _ _ hnil]
      exact .decline trivial hidle hfirst hmsg
  | endRead => exact .idle (fun hworks => hworks) hx rfl rfl (fun _ => rfl) (.inl rfl)
  | connect | crash | discard => exact hkind.elim

theorem open_of_drains {a : Action} (h : s.Open members) (hdrains : s.Drains members a t) :
    t.Open members := by
  have hcommit : ∀ {x : NetworkId} {phase : Phase} {rest : List Packet}
      {r : Computation × List Send}, (x ∈ members → r.1.state ≠ .finished) →
      (∀ p ∈ rest, p ∈ s.packets) → (∀ q ∈ r.2, q.msg ≠ .terminate) →
      (({ s with packets := rest } : System).commit x phase r).Open members := by
    intro x phase rest r hstate hrest hsent
    constructor
    · intro y hy
      rcases eq_or_ne y x with rfl | hne
      · rw [commit_comp_self]
        exact hstate hy
      · rw [commit_comp_of_ne _ _ _ hne]
        exact h.unfinished y hy
    · intro p hp
      rcases mem_commit_packets.mp hp with hp | ⟨q, hq, rfl⟩
      · exact h.unended p (hrest p hp)
      · exact hsent q hq
  cases hdrains with
  | idle _ _ _ _ _ hstate =>
    refine hcommit (fun hx => ?_) (fun p hp => hp) (by simp)
    rcases hstate with hsame | ⟨-, hwaiting⟩
    · rw [hsame]
      exact h.unfinished _ hx
    · simp [hwaiting]
  | explore =>
    exact hcommit (fun hx => h.unfinished _ hx) (fun p hp => hp) (by simp)
  | finish _ _ _ hwaiting hsent =>
    refine hcommit (fun _ => by simp [hwaiting]) (fun p hp => hp) ?_
    intro q hq
    rw [hsent] at hq
    rw [(Net.mem_broadcastMsg.mp hq).2]
    exact Message.noConfusion
  | take _ _ hpackets =>
    refine hcommit (fun _ => Computation.onAssignment_not_finished _ _ _) (fun q hq => ?_) (by simp)
    rw [hpackets]
    exact List.mem_cons_of_mem _ hq
  | hear _ _ hpackets _ hstate =>
    refine hcommit (fun hx => ?_) (fun q hq => ?_) (by simp)
    · rw [hstate]
      exact h.unfinished _ hx
    · rw [hpackets]
      exact List.mem_cons_of_mem _ hq
  | decline _ _ hpackets =>
    refine hcommit (fun hx => h.unfinished _ hx) (fun q hq => ?_) (by simp)
    rw [hpackets]
    exact List.mem_cons_of_mem _ hq

theorem sum_load_broadcast (h : s.Regular members leader) (hx : x ∈ members) (best : Int32) :
    (((s.net x).broadcastMsg (.assignmentFinished best)).map fun q =>
      Packet.load M members.card ⟨x, q.destId, q.msg⟩).sum ≤ members.card := by
  have hones : (((s.net x).broadcastMsg (.assignmentFinished best)).map fun q =>
      Packet.load M members.card ⟨x, q.destId, q.msg⟩) = (s.net x).clients.map fun _ => 1 := by
    rw [Net.broadcastMsg, List.map_map]
    rfl
  have hlength := h.length_clients hx
  rw [hones, List.map_const', List.sum_replicate, smul_eq_mul, Nat.mul_one]
  omega

theorem load_of_computing {c : Computation} (h : c.state = .computing) (count : Nat) :
    c.load count = c.maximumCut.pendingStates + count + 1 := by
  rw [Computation.load, if_pos h]

theorem load_of_not_computing {c : Computation} (h : c.state ≠ .computing) (count : Nat) :
    c.load count = 0 := by
  rw [Computation.load, if_neg h]

/-- A job that is taken weighs as much on the node as it did on its way. -/
theorem load_take {c : Computation} {net : Net} {assign : StackAssignment}
    (hmatrix : c.maximumCut.matrix = M) (hidle : c.state ≠ .computing) (count : Nat) :
    (c.onAssignment net assign).load count =
      jobLoad M count (assign.getAssignment net.networkId) := by
  obtain ⟨hcut, hstate⟩ := c.onAssignment_of_not_computing net assign hidle
  rw [Computation.load, hstate, hcut, jobLoad]
  split
  · rfl
  · rw [← hmatrix]
    rfl

theorem load_of_drains {a : Action} (hregular : s.Regular members leader)
    (hmatrix : ∀ x, (s.comp x).maximumCut.matrix = M) (hdrains : s.Drains members a t) :
    t.load members M ≤ s.load members M ∧ (s.Works a → t.load members M < s.load members M) := by
  have hmember : ∀ {p : Packet} {rest : List Packet}, s.packets = p :: rest → p.dst ∈ members :=
    fun hpackets => (hregular.mem_of_packet (hpackets ▸ List.mem_cons_self)).2.1
  have hread : ∀ {p : Packet} {rest : List Packet}, s.packets = p :: rest →
      s.load members M = ∑ y ∈ members, (s.comp y).load members.card +
        (Packet.load M members.card p + (rest.map (Packet.load M members.card)).sum) := by
    intro p rest hpackets
    rw [load, total, hpackets, List.map_cons, List.sum_cons]
  -- taking a packet off lowers the load by one, whatever its reader takes over
  have hlower : ∀ {p : Packet} {rest : List Packet} {c : Computation}, s.packets = p :: rest →
      c.load members.card + 1 ≤ (s.comp p.dst).load members.card +
        Packet.load M members.card p →
      (({ s with packets := rest } : System).commit p.dst .read (c, [])).load members M <
        s.load members M := by
    intro p rest c hpackets hle
    have hcommit := load_commit M s (hmember hpackets) rest .read c []
    rw [List.map_nil, List.sum_nil] at hcommit
    rw [hread hpackets]
    omega
  cases hdrains with
  | @idle x phase c hworks hx hstack hcut _ hstate =>
    have hload : c.load members.card = (s.comp x).load members.card := by
      rcases hstate with hkept | ⟨hinitial, hwaiting⟩
      · rw [Computation.load, Computation.load, hkept, MaximumCut.pendingStates,
          MaximumCut.pendingStates, hcut, ← Computation.stack, hstack]
        rfl
      · rw [load_of_not_computing (by simp [hwaiting]), load_of_not_computing (by simp [hinitial])]
    have hcommit := load_send M s hx phase c []
    rw [List.map_nil, List.sum_nil, hload] at hcommit
    exact ⟨by omega, fun h => absurd h hworks⟩
  | @explore x mc ps _ hx hcomputing hexplored hps =>
    have hpending := hexplored.pendingStates_eq
    have hpopped := List.length_pos_iff.mpr hps
    have hload : { s.comp x with maximumCut := mc }.load members.card =
        mc.pendingStates + members.card + 1 := by
      rw [Computation.load]
      exact if_pos hcomputing
    have hcommit := load_send M s hx .read { s.comp x with maximumCut := mc } []
    rw [List.map_nil, List.sum_nil, load_of_computing hcomputing, hload] at hcommit
    have hlt : (s.commit x .read ({ s.comp x with maximumCut := mc }, [])).load members M <
        s.load members M := by omega
    exact ⟨hlt.le, fun _ => hlt⟩
  | @finish x r best _ hx hcomputing hwaiting hsent =>
    obtain ⟨c, sent⟩ := r
    obtain rfl : sent = _ := hsent
    have hstate : c.state ≠ .computing := by
      rw [show c.state = .waiting from hwaiting]
      exact State.noConfusion
    have hsum := sum_load_broadcast (M := M) hregular hx best
    have hcommit := load_send M s hx .read c ((s.net x).broadcastMsg (.assignmentFinished best))
    rw [load_of_computing hcomputing, load_of_not_computing hstate] at hcommit
    have hlt : (s.commit x .read (c, (s.net x).broadcastMsg (.assignmentFinished best))).load
        members M < s.load members M := by omega
    exact ⟨hlt.le, fun _ => hlt⟩
  | @take p rest assign resent _ hidle hpackets hmsg =>
    have hp : p.load M members.card =
        jobLoad M members.card (assign.getAssignment p.dst) + 1 := by rw [Packet.load, hmsg]
    have hlt := hlower hpackets (c := (s.comp p.dst).onAssignment (s.net p.dst) assign) (by
      rw [load_take (hmatrix p.dst) (hidle p.dst), hregular.mesh.networkId, hp]
      omega)
    exact ⟨hlt.le, fun _ => hlt⟩
  | @hear p rest c best _ hidle hpackets hmsg hstate hcut =>
    have hlt := hlower hpackets (c := c) (by
      rw [Computation.load, Computation.load, hstate, hcut, Packet.load, hmsg])
    exact ⟨hlt.le, fun _ => hlt⟩
  | @decline p rest client _ hidle hpackets hmsg =>
    have hlt := hlower hpackets (c := s.comp p.dst) (by rw [Packet.load, hmsg])
    exact ⟨hlt.le, fun _ => hlt⟩

/-- Before there is anything to work off, everything stays as it is. -/
theorem same_of_drains {a : Action} (hworks : ¬ s.Works a) (hdrains : s.Drains members a t) :
    t.packets = s.packets ∧ ∀ y, t.Computing y ↔ s.Computing y := by
  cases hdrains with
  | @idle x phase c _ hx _ _ _ hstate =>
    constructor
    · simp
    · intro y
      rcases eq_or_ne y x with rfl | hne
      · rw [computing_commit_self, Computing]
        rcases hstate with hsame | ⟨hinitial, hwaiting⟩
        · rw [hsame]
        · simp [hinitial, hwaiting]
      · exact computing_commit_of_ne _ _ _ hne
  | explore h | finish h | take h | hear h | decline h => exact absurd h hworks

section Enabled

theorem exists_first (hregular : s.Regular members leader) (hlive : (s.comp x).state ≠ .finished)
    (hphase : s.phase x = .first) (hdealt : x = leader → (s.comp leader).state ≠ .initial) :
    ∃ r, s.next (.first x false false) = some (s.commit x .compute r) := by
  obtain ⟨r, hr⟩ : ∃ r, (s.comp x).firstStep (s.net x) false false = some r := by
    rw [Computation.firstStep]
    split
    · rename_i hleads
      obtain rfl := hregular.mesh.eq_of_leads hleads
      rw [Computation.leaderStep]
      split
      · rename_i hinitial
        exact absurd hinitial (hdealt rfl)
      · exact ⟨_, rfl⟩
      · exact ⟨_, rfl⟩
      · exact ⟨_, rfl⟩
      · exact ⟨_, rfl⟩
    · exact ⟨_, rfl⟩
  refine ⟨r, ?_⟩
  rw [next, if_pos ⟨by simp [atPhase, hregular.running, hphase], hlive⟩, hr]
  rfl

theorem exists_compute (hregular : s.Regular members leader)
    (hsize : 1 ≤ (s.comp x).maximumCut.matrix.size) (hphase : s.phase x = .compute) :
    ∃ r, s.next (.compute x) = some (s.commit x .read r) := by
  obtain ⟨r, hr⟩ := Computation.exists_computeStep (s.net x) hsize fun mc _ hcomputing =>
    Option.isSome_iff_ne_none.mp ((hregular.fit x).employed hcomputing).2
  refine ⟨r, ?_⟩
  rw [next, if_pos (by simp [atPhase, hregular.running, hphase]), hr]
  rfl

theorem next_endRead (hregular : s.Regular members leader) (hphase : s.phase x = .read) :
    s.next (.endRead x) = some (s.commit x .first (s.comp x, [])) := by
  rw [next, if_pos (by simp [atPhase, hregular.running, hphase])]

/-- What was sent first can be read: it is not an announcement to somebody without a table. -/
theorem exists_receive (hregular : s.Regular members leader) {p : Packet} {rest : List Packet}
    (hpackets : s.packets = p :: rest) (hphase : s.phase p.dst = .read) :
    ∃ t, s.next (.receive p.dst p.src) = some t := by
  have hp : p ∈ s.packets := hpackets ▸ List.mem_cons_self
  have hfound : s.packets.find? (Packet.onConnection p.src p.dst) = some p := by
    rw [hpackets, List.find?_cons_of_pos (by simp [Packet.onConnection])]
  have hstarted : (s.comp leader).state ≠ .initial := by
    intro hinitial
    rw [(hregular.fresh hinitial).1] at hp
    cases hp
  obtain ⟨r, hr⟩ : ∃ r, (s.comp p.dst).onMessage (s.net p.dst) p.src p.msg = some r := by
    cases hmsg : p.msg with
    | assignmentFinished best =>
      have htable : (s.comp p.dst).currAssignment.isSome = true := by
        refine (hregular.dealt hstarted p.dst (hregular.mem_of_packet hp).2.1).resolve_right ?_
        rintro ⟨q, hq, assign, resent, hassign⟩
        rw [firstTo, hpackets, List.find?_cons_of_pos (by simp)] at hq
        obtain rfl := Option.some.inj hq
        rw [hmsg] at hassign
        cases hassign
      obtain ⟨table, htable⟩ := Option.isSome_iff_exists.mp htable
      simp [Computation.onMessage, Computation.onAssignmentFinished, htable]
    | stackAssignment assign resent | terminate | divideWith id => exact ⟨_, rfl⟩
  refine ⟨({ s with packets := s.packets.eraseP (Packet.onConnection p.src p.dst) } :
    System).commit p.dst .read r, ?_⟩
  rw [next, if_pos (by simp [atPhase, hregular.running, hphase]), hfound]
  dsimp only
  rw [hr, Option.map_some]

end Enabled

/-- A state of a run of fixed members that nobody has ended. -/
structure Drainable (members : Finset NetworkId) (leader : NetworkId) (M : Matrix) (s : System) :
    Prop where
  regular : s.Regular members leader
  genuine : s.Genuine M fun _ => 0
  isOpen : s.Open members

theorem Drainable.next {a : Action} (h : s.Drainable members leader M)
    (ha : s.Draining members leader a) (hstep : s.next a = some t) :
    t.Drainable members leader M ∧ s.Drains members a t := by
  have hdrains := drains_of_next h.isOpen h.regular ha hstep
  exact ⟨⟨regular_next ha.fixed hstep h.regular, genuine_next hstep h.genuine,
    open_of_drains h.isOpen hdrains⟩, hdrains⟩

theorem Drainable.run (h : s.Drainable members leader M)
    (hrun : Run System.next (Draining members leader) s t) : t.Drainable members leader M :=
  hrun.invariant h fun _ _ _ h ha hstep => (h.next ha hstep).1

/-- Nothing has been sent or read, and the same nodes compute. -/
def Still (s t : System) : Prop := t.packets = s.packets ∧ ∀ y, t.Computing y ↔ s.Computing y

theorem Still.trans {u : System} (h : s.Still t) (h' : t.Still u) : s.Still u :=
  ⟨h'.1.trans h.1, fun y => (h'.2 y).trans (h.2 y)⟩

/-- A node can be brought to its next phase as long as it does not work. -/
theorem Drainable.exists_step (hM : 1 ≤ M.size) (h : s.Drainable members leader M)
    (hx : x ∈ members) (hidle : s.phase x = .compute → ¬ s.Computing x)
    (hdealt : s.phase x = .first → x = leader → (s.comp leader).state ≠ .initial) :
    ∃ t, Run System.next (Draining members leader) s t ∧ s.Still t ∧
      (s.phase x = .first → t.phase x = .compute) ∧ (s.phase x = .compute → t.phase x = .read) ∧
      (s.phase x = .read → t.phase x = .first) := by
  have hone : ∀ {a : Action} {phase : Phase} {r : Computation × List Send},
      s.next a = some (s.commit x phase r) → s.Draining members leader a → ¬ s.Works a →
      ∃ t, Run System.next (Draining members leader) s t ∧ s.Still t ∧ t.phase x = phase := by
    intro a phase r hstep ha hworks
    exact ⟨_, .tail .refl ha hstep, same_of_drains hworks (h.next ha hstep).2,
      Function.update_self ..⟩
  cases hphase : s.phase x with
  | first =>
    obtain ⟨r, hr⟩ := exists_first h.regular (h.isOpen.unfinished x hx) hphase (hdealt hphase)
    obtain ⟨t, hrun, hstill, ht⟩ := hone hr ⟨hx, rfl, hdealt hphase⟩ id
    exact ⟨t, hrun, hstill, fun _ => ht, Phase.noConfusion, Phase.noConfusion⟩
  | compute =>
    obtain ⟨r, hr⟩ := exists_compute h.regular (by rwa [(h.genuine.paths x).matrix]) hphase
    obtain ⟨t, hrun, hstill, ht⟩ := hone hr ⟨hx, trivial⟩ (hidle hphase)
    exact ⟨t, hrun, hstill, Phase.noConfusion, fun _ => ht, Phase.noConfusion⟩
  | read =>
    obtain ⟨t, hrun, hstill, ht⟩ := hone (next_endRead h.regular hphase) ⟨hx, trivial⟩ id
    exact ⟨t, hrun, hstill, Phase.noConfusion, Phase.noConfusion, fun _ => ht⟩

theorem started_of_drains {a : Action} (hstarted : (s.comp leader).state ≠ .initial)
    (hdrains : s.Drains members a t) : (t.comp leader).state ≠ .initial := by
  have hcommit : ∀ {x : NetworkId} {phase : Phase} {rest : List Packet}
      {r : Computation × List Send}, (r.1.state = .initial → (s.comp x).state = .initial) →
      ((({ s with packets := rest } : System).commit x phase r).comp leader).state ≠ .initial := by
    intro x phase rest r hstate
    rcases eq_or_ne leader x with rfl | hne
    · rw [commit_comp_self]
      exact fun hi => hstarted (hstate hi)
    · rwa [commit_comp_of_ne _ _ _ hne]
  cases hdrains with
  | idle _ _ _ _ _ hstate =>
    refine hcommit fun hi => ?_
    rcases hstate with hsame | ⟨hinitial, -⟩
    · exact hsame.symm.trans hi
    · exact hinitial
  | explore => exact hcommit fun hi => hi
  | finish _ _ _ hwaiting =>
    refine hcommit fun hi => ?_
    rw [hwaiting] at hi
    cases hi
  | take => exact hcommit fun hi => absurd hi (Computation.onAssignment_started _ _ _)
  | hear _ _ _ _ hstate => exact hcommit fun hi => hstate.symm.trans hi
  | decline => exact hcommit fun hi => hi

theorem Drainable.started (h : s.Drainable members leader M)
    (hstarted : (s.comp leader).state ≠ .initial)
    (hrun : Run System.next (Draining members leader) s t) : (t.comp leader).state ≠ .initial := by
  have hboth := hrun.invariant (P := fun s => s.Drainable members leader M ∧
    (s.comp leader).state ≠ .initial) ⟨h, hstarted⟩ fun s a t h ha hstep =>
      ⟨(h.1.next ha hstep).1, started_of_drains h.2 (h.1.next ha hstep).2⟩
  exact hboth.2

theorem Drainable.exists_compute_phase (hM : 1 ≤ M.size) (h : s.Drainable members leader M)
    (hstarted : (s.comp leader).state ≠ .initial) (hx : x ∈ members) :
    ∃ t, Run System.next (Draining members leader) s t ∧ s.Still t ∧ t.phase x = .compute := by
  cases hphase : s.phase x with
  | compute => exact ⟨s, .refl, ⟨rfl, fun _ => Iff.rfl⟩, hphase⟩
  | first =>
    obtain ⟨t, hrun, hstill, ht, -⟩ := h.exists_step hM hx (by simp [hphase]) fun _ _ => hstarted
    exact ⟨t, hrun, hstill, ht hphase⟩
  | read =>
    obtain ⟨t, hrun, hstill, -, -, ht⟩ := h.exists_step hM hx (by simp [hphase]) (by simp [hphase])
    have hfirst := ht hphase
    obtain ⟨u, hrun', hstill', hu, -⟩ := (h.run hrun).exists_step hM hx (by simp [hfirst])
      fun _ _ => h.started hstarted hrun
    exact ⟨u, hrun.trans hrun', hstill.trans hstill', hu hfirst⟩

theorem Drainable.exists_read_phase (hM : 1 ≤ M.size) (h : s.Drainable members leader M)
    (hstarted : (s.comp leader).state ≠ .initial) (hx : x ∈ members) (hidle : ¬ s.Computing x) :
    ∃ t, Run System.next (Draining members leader) s t ∧ s.Still t ∧ t.phase x = .read := by
  obtain ⟨t, hrun, hstill, hphase⟩ := h.exists_compute_phase hM hstarted hx
  obtain ⟨u, hrun', hstill', -, hu, -⟩ := (h.run hrun).exists_step hM hx
    (fun _ => (hstill.2 x).not.mpr hidle) (by simp [hphase])
  exact ⟨u, hrun.trans hrun', hstill.trans hstill', hu hphase⟩

theorem Drainable.exists_first_phase (hM : 1 ≤ M.size) (h : s.Drainable members leader M)
    (hx : x ∈ members) (hidle : ¬ s.Computing x) :
    ∃ t, Run System.next (Draining members leader) s t ∧ s.Still t ∧ t.phase x = .first := by
  cases hphase : s.phase x with
  | first => exact ⟨s, .refl, ⟨rfl, fun _ => Iff.rfl⟩, hphase⟩
  | read =>
    obtain ⟨t, hrun, hstill, -, -, ht⟩ := h.exists_step hM hx (by simp [hphase]) (by simp [hphase])
    exact ⟨t, hrun, hstill, ht hphase⟩
  | compute =>
    obtain ⟨t, hrun, hstill, -, ht, -⟩ := h.exists_step hM hx (fun _ => hidle) (by simp [hphase])
    have hread := ht hphase
    obtain ⟨u, hrun', hstill', -, -, hu⟩ := (h.run hrun).exists_step hM hx (by simp [hread])
      (by simp [hread])
    exact ⟨u, hrun.trans hrun', hstill.trans hstill', hu hread⟩

theorem Drainable.load_le (h : s.Drainable members leader M)
    (hrun : Run System.next (Draining members leader) s t) :
    t.load members M ≤ s.load members M := by
  have hboth := hrun.invariant (P := fun t => t.Drainable members leader M ∧
      t.load members M ≤ s.load members M) ⟨h, le_rfl⟩ fun t a u ht ha hstep => by
    obtain ⟨hu, hdrains⟩ := ht.1.next ha hstep
    obtain ⟨hle, -⟩ := load_of_drains ht.1.regular (fun x => (ht.1.genuine.paths x).matrix) hdrains
    exact ⟨hu, hle.trans ht.2⟩
  exact hboth.2

/-- Nobody computes, and everything has been read. -/
def Quiet (s : System) : Prop := s.packets = [] ∧ ∀ x, ¬ s.Computing x

/-- As long as somebody computes or something is to be read, the load can be lowered. -/
theorem Drainable.exists_lower (hM : 1 ≤ M.size) (h : s.Drainable members leader M)
    (hstarted : (s.comp leader).state ≠ .initial) (hbusy : ¬ s.Quiet) :
    ∃ t, Run System.next (Draining members leader) s t ∧ t.load members M < s.load members M := by
  have hwork : ∀ {t u : System} {a : Action}, Run System.next (Draining members leader) s t →
      t.Draining members leader a → t.Works a → t.next a = some u →
      ∃ u, Run System.next (Draining members leader) s u ∧ u.load members M < s.load members M := by
    intro t u a hrun ha hworks hstep
    have ht := h.run hrun
    obtain ⟨-, hdrains⟩ := ht.next ha hstep
    have hlt := (load_of_drains ht.regular (fun x => (ht.genuine.paths x).matrix) hdrains).2 hworks
    exact ⟨u, hrun.tail ha hstep, hlt.trans_le (h.load_le hrun)⟩
  by_cases hnobody : ∀ x, ¬ s.Computing x
  · obtain ⟨p, rest, hpackets⟩ : ∃ p rest, s.packets = p :: rest :=
      List.exists_cons_of_ne_nil fun hnil => hbusy ⟨hnil, hnobody⟩
    have hdst := (h.regular.mem_of_packet (hpackets ▸ List.mem_cons_self)).2.1
    obtain ⟨t, hrun, hstill, hphase⟩ := h.exists_read_phase hM hstarted hdst (hnobody p.dst)
    have ht := hstill.1.trans hpackets
    obtain ⟨u, hu⟩ := exists_receive (h.run hrun).regular ht hphase
    have hidle : ∀ y, ¬ t.Computing y := fun y => (hstill.2 y).not.mpr (hnobody y)
    have ha : t.Draining members leader (.receive p.dst p.src) :=
      ⟨hdst, hidle, p, rest, ht, rfl, rfl⟩
    exact hwork hrun ha trivial hu
  · obtain ⟨x, hx⟩ := not_forall_not.mp hnobody
    have hmember := ((h.regular.fit x).employed hx).1
    obtain ⟨t, hrun, hstill, hphase⟩ := h.exists_compute_phase hM hstarted hmember
    have ht := h.run hrun
    obtain ⟨r, hr⟩ := exists_compute ht.regular (by rwa [(ht.genuine.paths x).matrix]) hphase
    have ha : t.Draining members leader (.compute x) := ⟨hmember, trivial⟩
    exact hwork hrun ha ((hstill.2 x).mpr hx) hr

theorem Drainable.exists_quiet (hM : 1 ≤ M.size) (h : s.Drainable members leader M)
    (hstarted : (s.comp leader).state ≠ .initial) :
    ∃ t, Run System.next (Draining members leader) s t ∧ t.Quiet := by
  obtain ⟨t, hrun, -, hquiet⟩ := Run.exists_of_measure
    (P := fun s => s.Drainable members leader M ∧ (s.comp leader).state ≠ .initial) (Q := Quiet)
    (load members M) (fun s hs hbusy => by
      obtain ⟨t, hrun, hlt⟩ := hs.1.exists_lower hM hs.2 hbusy
      exact ⟨t, hrun, ⟨hs.1.run hrun, hs.1.started hs.2 hrun⟩, hlt⟩) ⟨h, hstarted⟩
  exact ⟨t, hrun, hquiet⟩

end System

end ParLib.Job
