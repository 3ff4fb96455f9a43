import Mathlib.Data.List.Basic

/-! The auxiliary-info session (`sessions/auxiliary.rs`), on stages that may panic. -/

namespace Synedrion.Sessions

structure Stage (S T M : Type) where
  getMessages : S → ℕ → ℕ → Option (S × M)
  receive : S → ℕ → List UInt8 → Option S
  isFinishedReceiving : S → Option Bool
  finalize : S → Option T

structure Stage.Total {S T M : Type} (stage : Stage S T M) : Prop where
  getMessages : ∀ s numParties index, (stage.getMessages s numParties index).isSome
  receive : ∀ s «from» messageBytes, (stage.receive s «from» messageBytes).isSome
  isFinishedReceiving : ∀ s, (stage.isFinishedReceiving s).isSome
  finalize : ∀ s, (stage.finalize s).isSome

namespace Auxiliary

inductive AuxiliaryStage (S1 S1C S2 S3 R : Type)
  | round1 (r : S1)
  | round1Consensus (r : S1C)
  | round2 (r : S2)
  | round3 (r : S3)
  | result (r : R)

structure Stages (S1 S1C S2 S3 R M : Type) where
  round1 : Stage S1 S1C M
  round1Consensus : Stage S1C S2 M
  round2 : Stage S2 S3 M
  round3 : Stage S3 R M

variable {S1 S1C S2 S3 R M : Type} (st : Stages S1 S1C S2 S3 R M)

structure Stages.Total : Prop where
  round1 : st.round1.Total
  round1Consensus : st.round1Consensus.Total
  round2 : st.round2.Total
  round3 : st.round3.Total

def new (round1 : S1) : AuxiliaryStage S1 S1C S2 S3 R := .round1 round1

def onStage {α : Type} (f1 : S1 → Option (S1 × α)) (f1C : S1C → Option (S1C × α))
    (f2 : S2 → Option (S2 × α)) (f3 : S3 → Option (S3 × α)) :
    AuxiliaryStage S1 S1C S2 S3 R → Option (AuxiliaryStage S1 S1C S2 S3 R × α)
  | .round1 r => (f1 r).map (Prod.map .round1 id)
  | .round1Consensus r => (f1C r).map (Prod.map .round1Consensus id)
  | .round2 r => (f2 r).map (Prod.map .round2 id)
  | .round3 r => (f3 r).map (Prod.map .round3 id)
  | .result _ => none

def getMessages (numParties index : ℕ) :
    AuxiliaryStage S1 S1C S2 S3 R → Option (AuxiliaryStage S1 S1C S2 S3 R × M) :=
  onStage (st.round1.getMessages · numParties index)
    (st.round1Consensus.getMessages · numParties index) (st.round2.getMessages · numParties index)
    (st.round3.getMessages · numParties index)

def receiveCurrentStage («from» : ℕ) (messageBytes : List UInt8)
    (s : AuxiliaryStage S1 S1C S2 S3 R) : Option (AuxiliaryStage S1 S1C S2 S3 R) :=
  (onStage (fun r => (st.round1.receive r «from» messageBytes).map (·, ()))
    (fun r => (st.round1Consensus.receive r «from» messageBytes).map (·, ()))
    (fun r => (st.round2.receive r «from» messageBytes).map (·, ()))
    (fun r => (st.round3.receive r «from» messageBytes).map (·, ())) s).map Prod.fst

def isFinishedReceiving (s : AuxiliaryStage S1 S1C S2 S3 R) : Option Bool :=
  (onStage (fun r => (st.round1.isFinishedReceiving r).map (r, ·))
    (fun r => (st.round1Consensus.isFinishedReceiving r).map (r, ·))
    (fun r => (st.round2.isFinishedReceiving r).map (r, ·))
    (fun r => (st.round3.isFinishedReceiving r).map (r, ·)) s).map Prod.snd

def finalizeStage : AuxiliaryStage S1 S1C S2 S3 R → Option (AuxiliaryStage S1 S1C S2 S3 R)
  | .round1 r => (st.round1.finalize r).map .round1Consensus
  | .round1Consensus r => (st.round1Consensus.finalize r).map .round2
  | .round2 r => (st.round2.finalize r).map .round3
  | .round3 r => (st.round3.finalize r).map .result
  | .result _ => none

def result : AuxiliaryStage S1 S1C S2 S3 R → Option R
  | .result r => some r
  | _ => none

def isFinalStage : AuxiliaryStage S1 S1C S2 S3 R → Bool
  | .result _ => true
  | _ => false

def currentStageNum : AuxiliaryStage S1 S1C S2 S3 R → Option ℕ
  | .round1 _ => some 1
  | .round1Consensus _ => some 2
  | .round2 _ => some 3
  | .round3 _ => some 4
  | .result _ => none

def stagesNum : ℕ := 4

def finalized : AuxiliaryStage S1 S1C S2 S3 R → ℕ
  | .round1 _ => 0
  | .round1Consensus _ => 1
  | .round2 _ => 2
  | .round3 _ => 3
  | .result _ => 4

inductive Call
  | getMessages (numParties index : ℕ)
  | receive («from» : ℕ) (messageBytes : List UInt8)
  | isFinishedReceiving
  | finalizeStage
  | currentStageNum
  | result

def Call.isFinalizeStage : Call → Bool
  | .finalizeStage => true
  | _ => false

def Call.isResult : Call → Bool
  | .result => true
  | _ => false

def step (s : AuxiliaryStage S1 S1C S2 S3 R) : Call → Option (AuxiliaryStage S1 S1C S2 S3 R)
  | .getMessages numParties index => (getMessages st numParties index s).map Prod.fst
  | .receive «from» messageBytes => receiveCurrentStage st «from» messageBytes s
  | .isFinishedReceiving => (isFinishedReceiving st s).map fun _ => s
  | .finalizeStage => finalizeStage st s
  | .currentStageNum => (currentStageNum s).map fun _ => s
  | .result => (result s).map fun _ => s

def counterStep (k : ℕ) (c : Call) : Option ℕ :=
  if c.isResult = decide (k = stagesNum) then some (k + if c.isFinalizeStage then 1 else 0)
  else none

theorem counterStep_eq_some_iff {k k' : ℕ} {c : Call} :
    counterStep k c = some k' ↔
      c.isResult = decide (k = stagesNum) ∧ k' = k + if c.isFinalizeStage then 1 else 0 := by
  unfold counterStep
  split <;> rename_i h
  · exact ⟨fun e => ⟨h, (Option.some.inj e).symm⟩, fun e => by rw [e.2]⟩
  · exact ⟨fun e => (nomatch e), fun e => absurd e.1 h⟩

theorem isSome_counterStep (k : ℕ) (c : Call) :
    (counterStep k c).isSome = (c.isResult == decide (k = stagesNum)) := by
  unfold counterStep
  split <;> simp [*]

theorem isFinalStage_iff (s : AuxiliaryStage S1 S1C S2 S3 R) :
    isFinalStage s = true ↔ finalized s = stagesNum := by
  cases s <;> simp [isFinalStage, finalized, stagesNum]

theorem currentStageNum_eq (s : AuxiliaryStage S1 S1C S2 S3 R) :
    currentStageNum s = if finalized s < stagesNum then some (finalized s + 1) else none := by
  cases s <;> rfl

theorem isSome_result (s : AuxiliaryStage S1 S1C S2 S3 R) :
    (result s).isSome = isFinalStage s := by
  cases s <;> rfl

theorem decide_finalized_eq (s : AuxiliaryStage S1 S1C S2 S3 R) :
    decide (finalized s = stagesNum) = isFinalStage s := by
  cases s <;> rfl

theorem isSome_currentStageNum (s : AuxiliaryStage S1 S1C S2 S3 R) :
    (currentStageNum s).isSome = !isFinalStage s := by
  cases s <;> rfl

theorem onStage_eq_some {α : Type} {f1 : S1 → Option (S1 × α)} {f1C : S1C → Option (S1C × α)}
    {f2 : S2 → Option (S2 × α)} {f3 : S3 → Option (S3 × α)} {s s' : AuxiliaryStage S1 S1C S2 S3 R}
    {a : α} (h : onStage f1 f1C f2 f3 s = some (s', a)) :
    isFinalStage s = false ∧ finalized s' = finalized s := by
  cases s <;> simp only [onStage, Option.map_eq_some', Prod.exists, Prod.map, id, Prod.mk.injEq]
    at h <;> obtain ⟨_, _, -, rfl, -⟩ := h <;> exact ⟨rfl, rfl⟩

theorem isSome_onStage {α : Type} {f1 : S1 → Option (S1 × α)} {f1C : S1C → Option (S1C × α)}
    {f2 : S2 → Option (S2 × α)} {f3 : S3 → Option (S3 × α)} (h1 : ∀ r, (f1 r).isSome)
    (h1C : ∀ r, (f1C r).isSome) (h2 : ∀ r, (f2 r).isSome) (h3 : ∀ r, (f3 r).isSome)
    (s : AuxiliaryStage S1 S1C S2 S3 R) :
    (onStage f1 f1C f2 f3 s).isSome = !isFinalStage s := by
  cases s <;> simp [onStage, isFinalStage, h1, h1C, h2, h3]

theorem finalizeStage_eq_some {s s' : AuxiliaryStage S1 S1C S2 S3 R}
    (h : finalizeStage st s = some s') : isFinalStage s = false ∧ finalized s' = finalized s + 1 := by
  cases s <;> simp only [finalizeStage, Option.map_eq_some'] at h <;>
    obtain ⟨_, -, rfl⟩ := h <;> exact ⟨rfl, rfl⟩

theorem counterStep_finalized {s s' : AuxiliaryStage S1 S1C S2 S3 R} {c : Call}
    (h : step st s c = some s') : counterStep (finalized s) c = some (finalized s') := by
  rw [counterStep_eq_some_iff, decide_finalized_eq]
  cases c with
  | getMessages numParties index | receive «from» messageBytes =>
    obtain ⟨⟨_, _⟩, hg, rfl⟩ := Option.map_eq_some'.1 h
    obtain ⟨hf, hs⟩ := onStage_eq_some hg
    exact ⟨hf.symm, hs⟩
  | isFinishedReceiving =>
    obtain ⟨_, hg, rfl⟩ := Option.map_eq_some'.1 h
    obtain ⟨⟨_, _⟩, hg, -⟩ := Option.map_eq_some'.1 hg
    exact ⟨(onStage_eq_some hg).1.symm, rfl⟩
  | finalizeStage =>
    obtain ⟨hf, hs⟩ := finalizeStage_eq_some st h
    exact ⟨hf.symm, hs⟩
  | currentStageNum =>
    obtain ⟨_, hg, rfl⟩ := Option.map_eq_some'.1 h
    have := isSome_currentStageNum s
    rw [hg] at this
    exact ⟨(by simpa using this : isFinalStage s = false).symm, rfl⟩
  | result =>
    obtain ⟨_, hg, rfl⟩ := Option.map_eq_some'.1 h
    have := isSome_result s
    rw [hg] at this
    exact ⟨this, rfl⟩

variable {st}

theorem isSome_step (ht : st.Total) (s : AuxiliaryStage S1 S1C S2 S3 R) (c : Call) :
    (step st s c).isSome = (counterStep (finalized s) c).isSome := by
  rw [isSome_counterStep, decide_finalized_eq]
  cases c with
  | getMessages numParties index =>
    rw [step, Option.isSome_map', getMessages, isSome_onStage (fun r => ht.round1.getMessages r _ _)
      (fun r => ht.round1Consensus.getMessages r _ _) (fun r => ht.round2.getMessages r _ _)
      (fun r => ht.round3.getMessages r _ _)]
    cases isFinalStage s <;> rfl
  | receive «from» messageBytes =>
    rw [step, receiveCurrentStage, Option.isSome_map', isSome_onStage
      (by simp [ht.round1.receive]) (by simp [ht.round1Consensus.receive])
      (by simp [ht.round2.receive]) (by simp [ht.round3.receive])]
    cases isFinalStage s <;> rfl
  | isFinishedReceiving =>
    rw [step, isFinishedReceiving, Option.isSome_map', Option.isSome_map', isSome_onStage
      (by simp [ht.round1.isFinishedReceiving]) (by simp [ht.round1Consensus.isFinishedReceiving])
      (by simp [ht.round2.isFinishedReceiving]) (by simp [ht.round3.isFinishedReceiving])]
    cases isFinalStage s <;> rfl
  | finalizeStage =>
    cases s <;> simp [step, finalizeStage, isFinalStage, Call.isResult, ht.round1.finalize,
      ht.round1Consensus.finalize, ht.round2.finalize, ht.round3.finalize]
  | currentStageNum => cases s <;> rfl
  | result =>
    rw [step, Option.isSome_map', isSome_result]
    cases isFinalStage s <;> rfl

variable (st)

theorem run_finalized {s s' : AuxiliaryStage S1 S1C S2 S3 R} {cs : List Call}
    (h : cs.foldlM (step st) s = some s') :
    cs.foldlM counterStep (finalized s) = some (finalized s') := by
  induction cs generalizing s with
  | nil => exact congrArg (some ∘ finalized) (Option.some.inj h)
  | cons c cs ih =>
    simp only [List.foldlM_cons] at h ⊢
    obtain ⟨s₁, h₁, h⟩ := Option.bind_eq_some.1 h
    rw [counterStep_finalized st h₁]
    exact ih h

theorem run_map_finalized (ht : st.Total) (s : AuxiliaryStage S1 S1C S2 S3 R) (cs : List Call) :
    (cs.foldlM (step st) s).map finalized = cs.foldlM counterStep (finalized s) := by
  induction cs generalizing s with
  | nil => rfl
  | cons c cs ih =>
    simp only [List.foldlM_cons]
    cases h : step st s c with
    | none =>
      cases hc : counterStep (finalized s) c with
      | none => rfl
      | some k =>
        have := isSome_step ht s c
        rw [h, hc] at this
        cases this
    | some s' =>
      rw [counterStep_finalized st h]
      exact ih s'

/-- The session panics only where its counter does, and exactly there if no stage panics. -/
theorem isSome_run (s : AuxiliaryStage S1 S1C S2 S3 R) (cs : List Call) :
    ((cs.foldlM (step st) s).isSome → (cs.foldlM counterStep (finalized s)).isSome) ∧
      (st.Total →
        (cs.foldlM (step st) s).isSome = (cs.foldlM counterStep (finalized s)).isSome) := by
  refine ⟨fun h => ?_, fun ht => by rw [← run_map_finalized st ht, Option.isSome_map']⟩
  obtain ⟨s', hs'⟩ := Option.isSome_iff_exists.1 h
  rw [run_finalized st hs']
  rfl

theorem counterRun_eq_some {k k' : ℕ} {cs : List Call} (h : cs.foldlM counterStep k = some k') :
    k' = k + cs.countP Call.isFinalizeStage := by
  induction cs generalizing k with
  | nil => exact (Option.some.inj h).symm
  | cons c cs ih =>
    simp only [List.foldlM_cons] at h
    obtain ⟨k₁, hk₁, h⟩ := Option.bind_eq_some.1 h
    rw [ih h, (counterStep_eq_some_iff.1 hk₁).2, List.countP_cons]
    omega

/-- A session from `new` has finalized once per `finalize_stage`, and is final at `stages_num`. -/
theorem run_new {round1 : S1} {cs : List Call} {s : AuxiliaryStage S1 S1C S2 S3 R}
    (h : cs.foldlM (step st) (new round1) = some s) :
    finalized s = cs.countP Call.isFinalizeStage ∧
      (isFinalStage s = true ↔ cs.countP Call.isFinalizeStage = stagesNum) ∧
      ((result s).isSome ↔ cs.countP Call.isFinalizeStage = stagesNum) ∧
      (cs.countP Call.isFinalizeStage < stagesNum →
        currentStageNum s = some (cs.countP Call.isFinalizeStage + 1)) := by
  have hk : finalized s = cs.countP Call.isFinalizeStage :=
    (counterRun_eq_some (run_finalized st h)).trans (Nat.zero_add _)
  refine ⟨hk, hk ▸ isFinalStage_iff s, by rw [isSome_result, ← hk]; exact isFinalStage_iff s,
    fun hlt => ?_⟩
  rw [currentStageNum_eq, hk, if_pos hlt]

def smallStages : Stages Unit Unit Unit Unit ℕ Unit :=
  let stage {T : Type} (t : T) : Stage Unit T Unit :=
    ⟨fun _ _ _ => some ((), ()), fun _ _ _ => some (), fun _ => some true, fun _ => some t⟩
  ⟨stage (), stage (), stage (), stage 7⟩

theorem run_new_small :
    let cs := [Call.getMessages 2 0, .receive 1 [0], .isFinishedReceiving, .finalizeStage,
      .finalizeStage, .currentStageNum, .finalizeStage, .finalizeStage, .result]
    cs.foldlM (step smallStages) (new ()) = some (.result 7) ∧
      finalized (.result 7 : AuxiliaryStage Unit Unit Unit Unit ℕ) = cs.countP Call.isFinalizeStage ∧
      (isFinalStage (.result 7 : AuxiliaryStage Unit Unit Unit Unit ℕ) = true ↔
        cs.countP Call.isFinalizeStage = stagesNum) ∧
      ((result (.result 7 : AuxiliaryStage Unit Unit Unit Unit ℕ)).isSome ↔
        cs.countP Call.isFinalizeStage = stagesNum) ∧
      (cs.countP Call.isFinalizeStage < stagesNum →
        currentStageNum (.result 7 : AuxiliaryStage Unit Unit Unit Unit ℕ) =
          some (cs.countP Call.isFinalizeStage + 1)) := by
  intro cs
  have h : cs.foldlM (step smallStages) (new ()) = some (.result 7) := rfl
  exact ⟨h, run_new smallStages h⟩

theorem isSome_run_small :
    let cs := [Call.finalizeStage, .finalizeStage, .finalizeStage, .finalizeStage, .result]
    smallStages.Total ∧ (cs.foldlM (step smallStages) (new ())).isSome ∧
      (cs.foldlM counterStep 0).isSome ∧
      (cs.foldlM (step smallStages) (new ())).isSome = (cs.foldlM counterStep 0).isSome := by
  intro cs
  have ht : smallStages.Total := by
    refine ⟨?_, ?_, ?_, ?_⟩ <;>
      exact ⟨fun _ _ _ => rfl, fun _ _ _ => rfl, fun _ => rfl, fun _ => rfl⟩
  have h : (cs.foldlM (step smallStages) (new ())).isSome := rfl
  exact ⟨ht, h, (isSome_run smallStages (new ()) cs).1 h, (isSome_run smallStages (new ()) cs).2 ht⟩

end Auxiliary

end Synedrion.Sessions
