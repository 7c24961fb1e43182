import ParLib.Job.Termination

/-!
# Found values at termination

A node announces its best value when it finishes a job, and only then. In an
orderly run the leader has heard of everything once nobody has work, apart
from what it found itself before it dealt the first jobs.
-/

namespace ParLib

set_option autoImplicit false

open Foundations

namespace MaximumCut

variable {mc mc' : MaximumCut}

/-- The best value is the largest sum of a popped state. -/
def Best (mc : MaximumCut) : Prop := mc.bestMax.toNat = bestOf mc.matrix mc.popped 0

theorem Best.explored {ps : List Path} (hbest : mc.Best) (h : Explored mc mc' ps) : mc'.Best := by
  rw [Best, h.best, hbest, h.popped, bestOf_append, h.matrix]

theorem Best.eq_zero (hbest : mc.Best) (hsums : ∀ p ∈ mc.popped, mc.matrix.sum p = 0) :
    mc.bestMax = 0 := by
  have hnone : ∀ ps : List Path, (∀ p ∈ ps, mc.matrix.sum p = 0) → bestOf mc.matrix ps 0 = 0 := by
    intro ps hps
    induction ps with
    | nil => rfl
    | cons p ps ih =>
      have hp : (mc.matrix.sum p).toUInt32.toNat = 0 := by
        rw [hps p List.mem_cons_self]
        rfl
      rw [bestOf, List.foldl_cons, hp]
      exact ih fun q hq => hps q (List.mem_cons_of_mem p hq)
  apply UInt32.toNat_inj.mp
  rw [hbest, hnone _ hsums]
  rfl

end MaximumCut

namespace Job

def Action.FailureFree : Action → Prop
  | .crash _ | .discard _ _ => False
  | .first _ _ _ | .compute _ | .receive _ _ | .endRead _ | .connect _ _ => True

namespace System

def bestMax (s : System) (x : NetworkId) : UInt32 := (s.comp x).maximumCut.bestMax

/-- The leader knows of a value as good as the node's, or will once it has read what was
sent; its own it need not know before it has announced one. -/
def Heard (s : System) (leader x : NetworkId) : Prop :=
  (s.bestMax x).toInt32 ≤ (s.comp leader).bestFound ∨
    (x = leader ∧ (s.comp leader).announced = 0) ∨
    ∃ p ∈ s.packets, p.src = x ∧ p.dst = leader ∧
      p.msg = .assignmentFinished (s.bestMax x).toInt32

/-- Whoever is not computing has been heard. -/
structure BestKept (leader : NetworkId) (s : System) : Prop where
  best : (s.comp leader).maximumCut.Best
  nonneg : 0 ≤ (s.comp leader).bestFound
  fresh : (s.comp leader).state = .initial → (s.comp leader).announced = 0
  heard : ∀ x, ¬ s.Computing x → s.Heard leader x

/-- The leader has announced a job of its own, or nothing that it popped has a sum. -/
def Reports (s : System) (leader : NetworkId) : Prop :=
  (s.comp leader).announced ≠ 0 ∨
    ∀ p ∈ (s.comp leader).maximumCut.popped, (s.comp leader).maximumCut.matrix.sum p = 0

instance (s : System) (leader : NetworkId) : Decidable (s.Reports leader) :=
  inferInstanceAs (Decidable (_ ∨ _))

theorem le_larger (best found : Int32) :
    found ≤ (if best > found then best else found) ∧
      best ≤ if best > found then best else found := by
  split
  · rename_i hlt
    exact ⟨Int32.le_of_lt hlt, Int32.le_refl _⟩
  · rename_i hge
    exact ⟨Int32.le_refl _, Int32.not_lt.mp hge⟩

variable {leader : NetworkId} {s t : System}

theorem Heard.mono {x : NetworkId} (h : s.Heard leader x) (hmax : t.bestMax x = s.bestMax x)
    (hfound : (s.comp leader).bestFound ≤ (t.comp leader).bestFound)
    (hannounced : x = leader → (t.comp leader).announced = (s.comp leader).announced)
    (hpackets : ∀ p ∈ s.packets, p ∈ t.packets ∨ (p.dst = leader → ∀ best,
      p.msg = .assignmentFinished best → best ≤ (t.comp leader).bestFound)) :
    t.Heard leader x := by
  rw [Heard, hmax]
  rcases h with hknown | ⟨rfl, hnone⟩ | ⟨p, hp, hsrc, hdst, hmsg⟩
  · exact .inl (Int32.le_trans hknown hfound)
  · exact .inr (.inl ⟨rfl, (hannounced rfl).trans hnone⟩)
  · cases hpackets p hp with
    | inl hkept => exact .inr (.inr ⟨p, hkept, hsrc, hdst, hmsg⟩)
    | inr hread => exact .inl (hread hdst _ hmsg)

section Steps

variable {x : NetworkId} {phase : Phase} {rest : List Packet} {r : Computation × List Send}

/-- What a step has to show that changes one node, reads `read` and sends. -/
theorem BestKept.of_commit (h : s.BestKept leader)
    (hbest : (s.comp x).maximumCut.Best → r.1.maximumCut.Best)
    (hfound : (s.comp x).bestFound ≤ r.1.bestFound)
    (hfresh : r.1.state = .initial →
      (s.comp x).state = .initial ∧ r.1.announced = (s.comp x).announced)
    (hread : ∀ p ∈ s.packets, p ∉ rest → p.dst = leader → ∀ best,
      p.msg = .assignmentFinished best → x = leader ∧ best ≤ r.1.bestFound)
    (hheard : r.1.state ≠ .computing →
      ({ s with packets := rest }.commit x phase r).Heard leader x) :
    ({ s with packets := rest }.commit x phase r).BestKept leader := by
  generalize ht : ({ s with packets := rest } : System).commit x phase r = t at hheard ⊢
  have hself : t.comp x = r.1 := by rw [← ht, commit_comp_self]
  have hother : ∀ y, y ≠ x → t.comp y = s.comp y := by
    intro y hy
    rw [← ht, commit_comp_of_ne _ _ _ hy]
  have hmono : (s.comp leader).bestFound ≤ (t.comp leader).bestFound := by
    rcases eq_or_ne leader x with rfl | hne
    · rwa [hself]
    · rw [hother leader hne]
      exact Int32.le_refl _
  refine ⟨?_, Int32.le_trans h.nonneg hmono, ?_, ?_⟩
  · rcases eq_or_ne leader x with rfl | hne
    · rw [hself]
      exact hbest h.best
    · rw [hother leader hne]
      exact h.best
  · rcases eq_or_ne leader x with rfl | hne
    · rw [hself]
      intro hinitial
      obtain ⟨hstate, hsame⟩ := hfresh hinitial
      rw [hsame]
      exact h.fresh hstate
    · rw [hother leader hne]
      exact h.fresh
  · intro y hy
    rcases eq_or_ne y x with rfl | hne
    · rw [Computing, hself] at hy
      exact hheard hy
    · rw [Computing, hother y hne] at hy
      refine (h.heard y hy).mono ?_ hmono ?_ ?_
      · rw [bestMax, hother y hne, bestMax]
      · rintro rfl
        rw [hother y hne]
      · intro p hp
        by_cases hrest : p ∈ rest
        · left
          rw [← ht, commit_packets]
          exact List.mem_append_left _ hrest
        · right
          intro hdst best hmsg
          obtain ⟨rfl, hle⟩ := hread p hp hrest hdst best hmsg
          rwa [hself]

/-- A step after which no more nodes are idle than before, and that finds nothing. -/
theorem BestKept.of_quiet (h : s.BestKept leader)
    (hcut : ∃ data, r.1.maximumCut = (s.comp x).maximumCut.assignData data)
    (hfound : (s.comp x).bestFound ≤ r.1.bestFound)
    (hannounced : r.1.announced = (s.comp x).announced)
    (hfresh : r.1.state = .initial → (s.comp x).state = .initial)
    (hidle : r.1.state ≠ .computing → ¬ s.Computing x)
    (hread : ∀ p ∈ s.packets, p ∉ rest → p.dst = leader → ∀ best,
      p.msg = .assignmentFinished best → x = leader ∧ best ≤ r.1.bestFound) :
    ({ s with packets := rest }.commit x phase r).BestKept leader := by
  obtain ⟨data, hcut⟩ := hcut
  refine h.of_commit ?_ hfound (fun hi => ⟨hfresh hi, hannounced⟩) hread ?_
  · intro hbest
    rw [hcut]
    exact hbest
  · intro hstate
    refine (h.heard x (hidle hstate)).mono ?_ ?_ ?_ ?_
    · rw [bestMax, commit_comp_self, hcut]
      rfl
    · rcases eq_or_ne leader x with rfl | hne
      · rwa [commit_comp_self]
      · rw [commit_comp_of_ne _ _ _ hne]
        exact Int32.le_refl _
    · rintro rfl
      rwa [commit_comp_self]
    · intro p hp
      by_cases hrest : p ∈ rest
      · exact .inl (List.mem_append_left _ hrest)
      · right
        intro hdst best hmsg
        obtain ⟨rfl, hle⟩ := hread p hp hrest hdst best hmsg
        rwa [commit_comp_self]

theorem BestKept.divide (h : s.BestKept leader) {client : NetworkId}
    (hne : client ≠ (s.net x).networkId) :
    (s.commit x phase ((s.comp x).onDivideWith (s.net x) client)).BestKept leader := by
  obtain ⟨hcut, hfound, hannounced⟩ := (s.comp x).onDivideWith_keeps hne
  have hstate := (s.comp x).onDivideWith_state hne
  refine h.of_quiet hcut (hfound ▸ Int32.le_refl _) hannounced ?_ ?_
    fun p hp hrest => absurd hp hrest
  · intro hinitial
    cases hstate with
    | inl hsame => rwa [← hsame]
    | inr hcomputing =>
      rw [hcomputing] at hinitial
      cases hinitial
  · intro hidle hcomputing
    cases hstate with
    | inl hsame => exact hidle (hsame.trans hcomputing)
    | inr hnow => exact hidle hnow

/-- Of what the leader finds before it deals the first jobs nobody hears. -/
theorem BestKept.init (h : s.BestKept leader) (hsound : s.Sound leader)
    (hstate : (s.comp leader).state = .initial)
    (hr : { s.comp leader with state := .waiting }.initLeaderStep (s.net leader) = some r) :
    (s.commit leader phase r).BestKept leader := by
  obtain ⟨mc, ps, -, assign, hexplored, -, -, -, rfl⟩ := hsound.wired.dealt hr
  generalize hc₀ : ({ s.comp leader with state := .waiting, maximumCut := mc } : Computation) = c₀
  have hannounced : (c₀.onAssignment (s.net leader) assign).announced = 0 := by
    rw [Computation.onAssignment_announced, ← hc₀]
    exact h.fresh hstate
  have hstarted : (c₀.onAssignment (s.net leader) assign).state ≠ .initial := by
    rcases c₀.onAssignment_state (s.net leader) assign with hnow | hnow <;> simp [hnow]
  refine h.of_commit ?_ ?_ (fun hi => absurd hi hstarted) (fun p hp hrest => absurd hp hrest) ?_
  · intro hbest
    obtain ⟨data, hcut⟩ := c₀.onAssignment_maximumCut (s.net leader) assign
    have hmc : mc.Best := MaximumCut.Best.explored (by exact hbest) hexplored
    rw [hcut, ← hc₀]
    exact hmc
  · rw [Computation.onAssignment_bestFound, ← hc₀]
    exact Int32.le_refl _
  · intro _
    refine .inr (.inl ⟨rfl, ?_⟩)
    rwa [commit_comp_self]

theorem BestKept.compute (h : s.BestKept leader) (hsound : s.Sound leader)
    (hr : (s.comp x).computeStep (s.net x) = some r) :
    (s.commit x phase r).BestKept leader := by
  obtain ⟨mc, ps, hexplored, hcase⟩ := Computation.computeStep_eq_some hr
  rcases hcase with rfl | ⟨hcomputing, -, hsent, hcut, hwaiting, -, hfound, -⟩
  · refine h.of_commit (fun hbest => hbest.explored hexplored) (Int32.le_refl _)
      (fun hi => ⟨hi, rfl⟩) (fun p hp hrest => absurd hp hrest) ?_
    intro hidle
    have hnothing := (hexplored.of_nil (hsound.idle x hidle)).2.2
    refine (h.heard x hidle).mono ?_ ?_ ?_ fun p hp => .inl (List.mem_append_left _ hp)
    · rw [bestMax, commit_comp_self, bestMax, ← hnothing]
    · rcases eq_or_ne leader x with rfl | hne
      · rw [commit_comp_self]
        exact Int32.le_refl _
      · rw [commit_comp_of_ne _ _ _ hne]
        exact Int32.le_refl _
    · rintro rfl
      rw [commit_comp_self]
  · have hbetter : (s.comp x).bestFound ≤ r.1.bestFound ∧ mc.getBestMax ≤ r.1.bestFound := by
      rw [hfound]
      exact le_larger mc.getBestMax _
    refine h.of_commit ?_ hbetter.1 ?_ (fun p hp hrest => absurd hp hrest) ?_
    · intro hbest
      rw [hcut]
      exact hbest.explored hexplored
    · intro hinitial
      rw [hwaiting] at hinitial
      cases hinitial
    · intro _
      rw [Heard, bestMax, commit_comp_self, hcut]
      rcases eq_or_ne x leader with rfl | hne
      · left
        rw [commit_comp_self]
        exact hbetter.2
      · refine .inr (.inr ⟨⟨x, leader, .assignmentFinished mc.getBestMax⟩, ?_, rfl, rfl, rfl⟩)
        have hknown : x ∈ (s.net leader).clients :=
          (hsound.known_of_active (.inl hcomputing)).resolve_left hne
        refine mem_commit_packets.mpr (.inr ⟨⟨leader, _⟩, ?_, rfl⟩)
        rw [hsent]
        exact Net.mem_broadcastMsg.mpr ⟨hsound.wired.symm leader x hknown, rfl⟩

theorem BestKept.check (h : s.BestKept leader) (hsound : s.Sound leader)
    {table : StackAssignment} (htable : (s.comp leader).currAssignment = some table)
    (sync : Bool) :
    (s.commit leader phase ((s.comp leader).checkTable (s.net leader) table sync)).BestKept
      leader := by
  have hid := hsound.wired.networkId leader
  have hstate := (s.comp leader).checked_state (s.net leader) table
  refine checkTable_induction (P := fun s' => s'.BestKept leader) hid sync
    (hsound.connected htable) ?_ ?_ ?_
  · intro sent _
    refine h.of_quiet ⟨(s.comp leader).maximumCut.states.data, rfl⟩ (Int32.le_refl _) rfl ?_ ?_
      fun p hp hrest => absurd hp hrest
    · intro hinitial
      rcases hstate with hsame | ⟨hfinished, -⟩
      · exact hsame.symm.trans hinitial
      · rw [hfinished] at hinitial
        cases hinitial
    · intro hidle hcomputing
      rcases hstate with hsame | ⟨-, hjobs⟩
      · exact hidle (hsame.trans hcomputing)
      · have hnone : ∀ k, s.recorded leader k = [] := by
          intro k
          rw [recorded_of_table htable]
          exact Computation.ClientSets.getAssignment_of_noJobsLeft hjobs k
        exact hsound.not_active hnone leader (.inl hcomputing)
  · rintro s' client hnet h' - - hne -
    apply h'.divide
    rwa [hnet, hid]
  · rintro s' sent - h' -
    exact h'.of_quiet ⟨(s'.comp leader).maximumCut.states.data, rfl⟩ (Int32.le_refl _) rfl
      (fun hi => hi) (fun hidle => hidle) fun p hp hrest => absurd hp hrest

end Steps

theorem bestKept_next {a : Action} (ha : s.Orderly leader a) (hstep : s.next a = some t)
    (hsound : s.Sound leader) (h : s.BestKept leader) : t.BestKept leader := by
  cases move_of_next hstep with
  | @first id timeUp sync r hlive hr =>
    cases hr with
    | init hleads hstate hr =>
      obtain rfl := hsound.wired.eq_of_leads hleads
      exact h.init hsound hstate hr
    | check hleads hstate _ htable =>
      obtain rfl := hsound.wired.eq_of_leads hleads
      exact h.check hsound htable sync
    | idle hcut hbest hannounced _ _ hstate =>
      refine h.of_quiet ⟨(s.comp id).maximumCut.states.data, hcut⟩ (hbest ▸ Int32.le_refl _)
        hannounced ?_ ?_ fun p hp hrest => absurd hp hrest
      · rcases hstate with hsame | ⟨-, -, hwaiting⟩
        · exact fun hi => hsame.symm.trans hi
        · intro hi
          rw [hwaiting] at hi
          cases hi
      · rcases hstate with hsame | ⟨-, hinitial, -⟩
        · exact fun hidle hcomputing => hidle (hsame.trans hcomputing)
        · intro _ hcomputing
          rw [Computing, hinitial] at hcomputing
          cases hcomputing
  | compute hr => exact h.compute hsound hr
  | @receive id src pre post p r hpackets hfound herase hsrc hdst hr =>
    subst hsrc hdst
    have hp := mem_of_read hpackets
    have hother : (∀ best, p.msg ≠ .assignmentFinished best) → ∀ q ∈ s.packets,
        q ∉ pre ++ post → q.dst = leader → ∀ best, q.msg = .assignmentFinished best →
        p.dst = leader ∧ best ≤ r.1.bestFound := by
      intro hmsg q hq hrest _ best hbest
      rw [eq_of_not_mem_rest hpackets hq hrest] at hbest
      exact absurd hbest (hmsg best)
    cases hmsg : p.msg with
    | stackAssignment assign resent =>
      rw [hmsg] at hr
      cases hr
      have hstate := (s.comp p.dst).onAssignment_state (s.net p.dst) assign
      refine h.of_quiet ((s.comp p.dst).onAssignment_maximumCut _ _) ?_
        (Computation.onAssignment_announced ..) ?_ ?_ (hother fun best => by simp [hmsg])
      · rw [Computation.onAssignment_bestFound]
        exact Int32.le_refl _
      · intro hi
        rcases hstate with hnow | hnow <;> simp [hnow] at hi
      · intro hidle hcomputing
        exact hidle (Computation.onAssignment_of_computing _ _ _ hcomputing).2
    | assignmentFinished best =>
      rw [hmsg] at hr
      obtain ⟨c, hc, rfl⟩ := Option.map_eq_some_iff.mp hr
      obtain ⟨-, -, hcut, hstate, hannounced, hbest⟩ := Computation.onAssignmentFinished_eq_some hc
      have hbetter : (s.comp p.dst).bestFound ≤ c.bestFound ∧ best ≤ c.bestFound := by
        rw [hbest]
        exact le_larger best _
      refine h.of_quiet ⟨(s.comp p.dst).maximumCut.states.data, hcut⟩ hbetter.1 hannounced
        (fun hi => hstate.symm.trans hi)
        (fun hidle hcomputing => hidle (hstate.trans hcomputing)) ?_
      intro q hq hrest hdst best' hbest'
      rw [eq_of_not_mem_rest hpackets hq hrest] at hdst hbest'
      rw [hmsg] at hbest'
      cases hbest'
      exact ⟨hdst, hbetter.2⟩
    | terminate =>
      rw [hmsg] at hr
      cases hr
      refine h.of_quiet ⟨(s.comp p.dst).maximumCut.states.data, rfl⟩ (Int32.le_refl _) rfl
        (fun hi => State.noConfusion hi) ?_ (hother fun best => by simp [hmsg])
      intro _ hcomputing
      exact hsound.not_active (hsound.ended (.inr ⟨p, hp, hmsg⟩)) p.dst (.inl hcomputing)
    | divideWith client =>
      rw [hmsg] at hr
      cases hr
      have hne : client ≠ (s.net p.dst).networkId := by
        rw [hsound.wired.networkId]
        exact (hsound.requests p hp client hmsg).2.1
      have hdropped : ({ s with packets := pre ++ post } : System).BestKept leader := by
        rw [← commit_same ({ s with packets := pre ++ post } : System) p.dst]
        exact h.of_quiet ⟨(s.comp p.dst).maximumCut.states.data, rfl⟩ (Int32.le_refl _) rfl
          (fun hi => hi) (fun hidle => hidle)
          fun q hq hrest hdst best hbest => by
            rw [eq_of_not_mem_rest hpackets hq hrest, hmsg] at hbest
            cases hbest
      exact hdropped.divide hne
  | @endRead id =>
    exact h.of_quiet ⟨(s.comp id).maximumCut.states.data, rfl⟩ (Int32.le_refl _) rfl
      (fun hi => hi) (fun hidle => hidle) fun p hp hrest => absurd hp hrest
  | connect hne hnew =>
    obtain ⟨hbest, hnonneg, hfresh, hheard⟩ := h
    exact ⟨hbest, hnonneg, hfresh, hheard⟩
  | crash => exact ha.elim
  | discard => exact ha.elim

theorem bestKept_of_start {members : Finset NetworkId} {matrix : Matrix}
    (h : Start members leader matrix s) : s.BestKept leader where
  best := by
    rw [h.comp]
    rfl
  nonneg := by
    rw [h.comp]
    exact Int32.le_refl _
  fresh _ := by
    rw [h.comp]
    rfl
  heard x _ := by
    left
    rw [bestMax, h.comp, h.comp]
    exact Int32.le_refl _

theorem toNat_le_toInt {best : UInt32} {found : Int32} (h : best.toInt32 ≤ found)
    (hbest : best.toNat < 2 ^ 31) : (best.toNat : Int) ≤ found.toInt := by
  have hle := Int32.le_iff_toInt_le.mp h
  rwa [MaximumCut.toInt_toInt32, if_pos hbest] at hle

theorem no_found_value_lost_at_termination {members : Finset NetworkId} {matrix : Matrix}
    {start : System} (hstart : Start members leader matrix start)
    (hrun : Run next (Orderly leader) start s) (hend : s.Terminates leader)
    (hreports : s.Reports leader) (x : NetworkId) (hx : (s.bestMax x).toNat < 2 ^ 31) :
    ((s.bestMax x).toNat : Int) ≤ (s.comp leader).bestFound.toInt := by
  obtain ⟨hsound, hkept⟩ := hrun.invariant (P := fun s => s.Sound leader ∧ s.BestKept leader)
    ⟨sound_of_start hstart, bestKept_of_start hstart⟩ fun t a u h ha hstep =>
      ⟨sound_next ha hstep h.1, bestKept_next ha hstep h.1 h.2⟩
  have hidle := hsound.not_active_of_terminates hend x
  rcases hkept.heard x fun hcomputing => hidle (.inl hcomputing) with
    hknown | ⟨rfl, hnone⟩ | ⟨p, hp, hsrc, hdst, hmsg⟩
  · exact toNat_le_toInt hknown hx
  · have hzero := hkept.best.eq_zero (hreports.resolve_left fun hsome => hsome hnone)
    refine toNat_le_toInt ?_ hx
    rw [bestMax, hzero]
    exact hkept.nonneg
  · exact absurd (.inr (.inr ⟨p, hp, hsrc, hdst, _, hmsg⟩)) hidle

theorem no_found_value_lost_by_two_nodes :
    ∃ s, Run next (Orderly idB) (.initial [idA, idB] idB fourClique) s ∧
      s.Terminates idB ∧ (s.comp idB).bestFound = 4 ∧
      ∀ x, (s.bestMax x).toNat < 2 ^ 31 →
        ((s.bestMax x).toNat : Int) ≤ (s.comp idB).bestFound.toInt := by
  have hstart : Start [idA, idB].toFinset idB fourClique _ :=
    start_initial (by decide) (by decide) fourClique
  obtain ⟨s, hs⟩ : ∃ s, runWhile next (Orderly idB) (.initial [idA, idB] idB fourClique)
      sharedRun = some s := Option.isSome_iff_exists.mp (by decide +kernel)
  have hchecked : ∀ t ∈ runWhile next (Orderly idB) (.initial [idA, idB] idB fourClique)
      sharedRun, t.Terminates idB ∧ t.Reports idB ∧ (t.comp idB).bestFound = 4 := by
    decide +kernel
  obtain ⟨hend, hreports, hfound⟩ := hchecked s hs
  exact ⟨s, .of_runWhile hs, hend, hfound,
    no_found_value_lost_at_termination hstart (.of_runWhile hs) hend hreports⟩

/-- "B" finds everything before it deals, and has nothing left to announce. -/
def headStartRun : List Action := [.first idB false false, .compute idB, .endRead idB]

theorem head_start_value_lost :
    ¬ ∀ (matrix : Matrix) (members : Finset NetworkId) (leader : NetworkId) (start s : System),
      1 ≤ matrix.size → Start members leader matrix start →
      Run next (fun _ a => a.FailureFree) start s → s.Terminates leader →
      ∀ x, (s.bestMax x).toNat < 2 ^ 31 →
        ((s.bestMax x).toNat : Int) ≤ (s.comp leader).bestFound.toInt := by
  intro h
  have hstart : Start [idA, idB].toFinset idB MaximumCut.edgeMatrix _ :=
    start_initial (by decide) (by decide) MaximumCut.edgeMatrix
  obtain ⟨s, hs⟩ : ∃ s,
      runActions next (.initial [idA, idB] idB MaximumCut.edgeMatrix) headStartRun =
      some s := Option.isSome_iff_exists.mp (by decide +kernel)
  have hchecked : ∀ t ∈
      runActions next (.initial [idA, idB] idB MaximumCut.edgeMatrix) headStartRun,
      t.Terminates idB ∧ t.bestMax idB = 5 ∧ (t.comp idB).bestFound = 0 := by
    decide +kernel
  obtain ⟨hend, hmax, hfound⟩ := hchecked s hs
  have hle := h MaximumCut.edgeMatrix _ idB _ s (by decide) hstart
    (.of_runActions hs (by simp [headStartRun, Action.FailureFree])) hend idB
    (by rw [hmax]; decide)
  rw [hmax, hfound] at hle
  exact absurd hle (by decide)

end System

end Job

end ParLib
