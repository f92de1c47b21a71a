import TapeMachine.Proofs.Execution.Interpretation

/-!
# Matching runs

When does a run of one program, under one interpretation, answer for a run of
another program under another? A `Matching` says which states correspond and what
the second run may have done by the time the first one ends. One program
`Simulates` another if corresponding states stay corresponding as long as the
first run goes on, and if the first run ends whenever the second one does. This
is kept by everything programs are built with: nodes in a row, loops and scans.
-/

namespace TapeMachine

variable {σ τ : Type}

/-- Which states of two interpretations correspond, and which fates of the second
one are in order once the first has ended in some state. Corresponding states
agree on whether to loop and on polls, and what is in order stays so when the
second run goes on. -/
structure Matching (I : Interpretation σ) (J : Interpretation τ) where
  near : σ → τ → Prop
  covers : Ending → σ → Fate τ → Prop
  zero_iff : ∀ {s t}, near s t → (I.zero s ↔ J.zero t)
  poll_went : ∀ {s t u}, near s t → I.poll s = .went u → ∃ v, J.poll t = .went v ∧ near u v
  poll_ended : ∀ {s t u ending}, near s t → I.poll s = .ended ending u →
    covers ending u (J.poll t)
  poll_stable : ∀ {ending u t}, covers ending u (.went t) → covers ending u (J.poll t)
  act_stable : ∀ {ending u t} (node : Node), covers ending u (.went t) →
    covers ending u (J.act node t)

namespace Matching

variable {I : Interpretation σ} {J : Interpretation τ} (M : Matching I J)

/-- What may become of corresponding states. -/
def Matched : Fate σ → Fate τ → Prop
  | .went u, fate => ∃ v, fate = .went v ∧ M.near u v
  | .ended ending u, fate => M.covers ending u fate

/-- The run of `E` answers for the run of `D`. -/
structure Simulates (D : σ → Fate σ → Prop) (E : τ → Fate τ → Prop) : Prop where
  functional : ∀ t a b, E t a → E t b → a = b
  stable : ∀ {ending u t b}, M.covers ending u (.went t) → E t b → M.covers ending u b
  went : ∀ {s t u}, M.near s t → D s (.went u) → ∃ v, E t (.went v) ∧ M.near u v
  ended : ∀ {s t u ending b}, M.near s t → D s (.ended ending u) → E t b → M.covers ending u b
  back : ∀ {s t b}, M.near s t → E t b → ∃ a, D s a

/-- The second program answers for the first. -/
def Refines (p q : Block) : Prop :=
  M.Simulates (I.runs p) (J.runs q)

/-! ## What is in order stays so -/

private theorem stable_repeats {E : τ → Fate τ → Prop} {ending : Ending} {u : σ}
    (stable : ∀ {t b}, M.covers ending u (.went t) → E t b → M.covers ending u b) {t : τ}
    {b : Fate τ} (covered : M.covers ending u (.went t)) (ran : J.Repeats E t b) :
    M.covers ending u b := by
  induction ran with
  | done => exact covered
  | @cut t v e nonzero polled =>
    have := M.poll_stable covered
    rwa [polled] at this
  | @failed t v w e nonzero polled ran =>
    have := M.poll_stable covered
    rw [polled] at this
    exact stable this ran
  | @again t v w last nonzero polled ran _ ih =>
    have := M.poll_stable covered
    rw [polled] at this
    exact ih (stable this ran)

private theorem stable_leads {E : τ → Fate τ → Prop} {ending : Ending} {u : σ}
    (stable : ∀ {t b}, M.covers ending u (.went t) → E t b → M.covers ending u b)
    {first b : Fate τ} (covered : M.covers ending u first) (leads : first.Leads E b) :
    M.covers ending u b := by
  cases first with
  | went t => exact stable covered leads
  | ended e t =>
    rw [Fate.leads_ended] at leads
    rwa [leads]

theorem stable_runs (block : Block) {ending : Ending} {u : σ} {t : τ} {b : Fate τ}
    (covered : M.covers ending u (.went t)) (ran : J.runs block t b) : M.covers ending u b := by
  induction block using Node.block_induction generalizing t b with
  | nil =>
    rw [Interpretation.runs_nil] at ran
    rwa [ran]
  | loop body rest ihBody ihRest =>
    obtain ⟨first, ran, leads⟩ := (J.runs_cons ..).1 ran
    refine M.stable_leads ihRest ?_ leads
    rcases (J.runsNode_loop ..).1 ran with ⟨_, rfl⟩ | ⟨_, repeated⟩
    · exact M.poll_stable covered
    · exact M.stable_repeats ihBody covered repeated
  | single node rest notLoop ihRest =>
    obtain ⟨first, ran, leads⟩ := (J.runs_cons ..).1 ran
    refine M.stable_leads ihRest ?_ leads
    cases node with
    | loop body => exact absurd rfl (notLoop body)
    | scanLoop step =>
      rw [Interpretation.runsNode_scanLoop] at ran
      refine M.stable_repeats (fun {t b} covered (moved : b = _) => ?_) covered ran
      rw [moved]
      exact M.act_stable _ covered
    | _ =>
      rw [Interpretation.runsNode_single J rfl] at ran
      rw [ran]
      exact M.act_stable _ covered

namespace Simulates

variable {M}

/-! ## Single actions -/

/-- Actions that match simulate each other. -/
theorem of_matched {act : σ → Fate σ} {act' : τ → Fate τ}
    (matched : ∀ {s t}, M.near s t → M.Matched (act s) (act' t))
    (stable : ∀ {ending u t}, M.covers ending u (.went t) → M.covers ending u (act' t)) :
    M.Simulates (fun s last => last = act s) fun t last => last = act' t where
  functional := fun _ _ _ ranA ranB => ranA.trans ranB.symm
  stable := fun covered ran => ran ▸ stable covered
  went := by
    intro s t u near ran
    have := matched near
    rw [← ran] at this
    obtain ⟨v, went, near⟩ := this
    exact ⟨v, went.symm, near⟩
  ended := by
    intro s t u ending b near ran ran'
    have := matched near
    rw [← ran] at this
    rw [ran']
    exact this
  back := fun _ _ => ⟨_, rfl⟩

/-! ## Repetition -/

variable {D D' : σ → Fate σ → Prop} {E E' : τ → Fate τ → Prop}

private theorem repeats_went (sim : M.Simulates D E) {s u : σ} {last : Fate σ}
    (ran : I.Repeats D s last) (same : last = .went u) :
    ∀ {t : τ}, M.near s t → ∃ v, J.Repeats E t (.went v) ∧ M.near u v := by
  induction ran with
  | done zero =>
    intro t near
    cases same
    exact ⟨t, .done ((M.zero_iff near).1 zero), near⟩
  | cut | failed => cases same
  | again nonzero polled ran _ ih =>
    intro t near
    obtain ⟨t₁, polled', near₁⟩ := M.poll_went near polled
    obtain ⟨t₂, ran', near₂⟩ := sim.went near₁ ran
    obtain ⟨v, more, nearV⟩ := ih same near₂
    exact ⟨v, .again (mt (M.zero_iff near).2 nonzero) polled' ran' more, nearV⟩

private theorem repeats_ended (sim : M.Simulates D E) {s u : σ} {ending : Ending}
    {last : Fate σ} (ran : I.Repeats D s last) (same : last = .ended ending u) :
    ∀ {t : τ} {b : Fate τ}, M.near s t → J.Repeats E t b → M.covers ending u b := by
  -- Once the first run has ended, a round and all later ones keep what is in order.
  have later {mid b : Fate τ} (covered : M.covers ending u mid)
      (leads : mid.Leads (J.Repeats E) b) : M.covers ending u b :=
    M.stable_leads (M.stable_repeats sim.stable) covered leads
  induction ran with
  | done => cases same
  | cut nonzero polled =>
    intro t b near ran'
    cases same
    rw [J.repeats_iff_of_nonzero (mt (M.zero_iff near).2 nonzero)] at ran'
    refine M.stable_leads ?_ (M.poll_ended near polled) ran'
    rintro t b covered ⟨mid, ran', leads⟩
    exact later (sim.stable covered ran') leads
  | failed nonzero polled ran =>
    intro t b near ran'
    cases same
    obtain ⟨t₁, polled', near₁⟩ := M.poll_went near polled
    rw [J.repeats_iff_of_nonzero (mt (M.zero_iff near).2 nonzero), polled'] at ran'
    obtain ⟨mid, ran', leads⟩ := ran'
    exact later (sim.ended near₁ ran ran') leads
  | again nonzero polled ran _ ih =>
    intro t b near ran'
    obtain ⟨t₁, polled', near₁⟩ := M.poll_went near polled
    obtain ⟨t₂, ran₂, near₂⟩ := sim.went near₁ ran
    rw [J.repeats_iff_of_nonzero (mt (M.zero_iff near).2 nonzero), polled'] at ran'
    obtain ⟨mid, ran', leads⟩ := ran'
    cases sim.functional _ _ _ ran₂ ran'
    exact ih same near₂ leads

private theorem repeats_back (sim : M.Simulates D E) {t : τ} {b : Fate τ}
    (ran : J.Repeats E t b) : ∀ {s : σ}, M.near s t → ∃ a, I.Repeats D s a := by
  induction ran with
  | done zero => exact fun near => ⟨_, .done ((M.zero_iff near).2 zero)⟩
  | cut nonzero polled =>
    intro s near
    refine I.exists_repeats_of_nonzero (mt (M.zero_iff near).1 nonzero) fun u polled' => ?_
    obtain ⟨v, went, _⟩ := M.poll_went near polled'
    rw [polled] at went
    cases went
  | failed nonzero polled ran =>
    intro s near
    refine I.exists_repeats_of_nonzero (mt (M.zero_iff near).1 nonzero) fun u polled' => ?_
    obtain ⟨v, went, near₁⟩ := M.poll_went near polled'
    rw [polled] at went
    cases went
    obtain ⟨mid, ran'⟩ := sim.back near₁ ran
    refine ⟨mid, ran', ?_⟩
    rintro w rfl
    obtain ⟨_, ran'', _⟩ := sim.went near₁ ran'
    cases sim.functional _ _ _ ran ran''
  | again nonzero polled ran _ ih =>
    intro s near
    refine I.exists_repeats_of_nonzero (mt (M.zero_iff near).1 nonzero) fun u polled' => ?_
    obtain ⟨v, went, near₁⟩ := M.poll_went near polled'
    rw [polled] at went
    cases went
    obtain ⟨mid, ran'⟩ := sim.back near₁ ran
    refine ⟨mid, ran', ?_⟩
    rintro w rfl
    obtain ⟨x, ran'', near₂⟩ := sim.went near₁ ran'
    cases sim.functional _ _ _ ran ran''
    exact ih near₂

/-- Rounds that simulate each other do so when repeated. -/
theorem repeats (sim : M.Simulates D E) : M.Simulates (I.Repeats D) (J.Repeats E) where
  functional := fun _ _ _ ranA ranB => ranA.functional J sim.functional ranB
  stable := fun covered ran => M.stable_repeats sim.stable covered ran
  went := fun near ran => sim.repeats_went ran rfl near
  ended := fun near ran ran' => sim.repeats_ended ran rfl near ran'
  back := fun near ran => sim.repeats_back ran near

/-! ## Sequence -/

/-- Runs that simulate each other do so one after the other. -/
theorem sequence (first : M.Simulates D E) (second : M.Simulates D' E') :
    M.Simulates (fun s last => ∃ mid, D s mid ∧ mid.Leads D' last)
      fun t last => ∃ mid, E t mid ∧ mid.Leads E' last where
  functional := by
    rintro t a b ⟨mid, ranA, leadsA⟩ ⟨mid', ranB, leadsB⟩
    cases first.functional t _ _ ranA ranB
    cases mid with
    | went u => exact second.functional u a b leadsA leadsB
    | ended ending u => exact leadsA.trans leadsB.symm
  stable := by
    rintro ending u t b covered ⟨mid, ran, leads⟩
    exact M.stable_leads second.stable (first.stable covered ran) leads
  went := by
    rintro s t u near ⟨mid, ran, leads⟩
    cases mid with
    | ended ending w => cases leads
    | went w =>
      obtain ⟨v, ran', near'⟩ := first.went near ran
      obtain ⟨x, more, nearX⟩ := second.went near' leads
      exact ⟨x, ⟨.went v, ran', more⟩, nearX⟩
  ended := by
    rintro s t u ending b near ⟨mid, ran, leads⟩ ⟨mid', ran', leads'⟩
    cases mid with
    | ended e w =>
      cases leads
      exact M.stable_leads second.stable (first.ended near ran ran') leads'
    | went w =>
      obtain ⟨v, ran'', near'⟩ := first.went near ran
      cases first.functional t _ _ ran' ran''
      exact second.ended near' leads leads'
  back := by
    rintro s t b near ⟨mid', ran', leads'⟩
    obtain ⟨mid, ran⟩ := first.back near ran'
    cases mid with
    | ended ending w => exact ⟨_, _, ran, rfl⟩
    | went w =>
      obtain ⟨v, ran'', near'⟩ := first.went near ran
      cases first.functional t _ _ ran' ran''
      obtain ⟨a, more⟩ := second.back near' leads'
      exact ⟨a, _, ran, more⟩

/-- A loop polls once when it finds a zero, and otherwise repeats its body. -/
theorem loop (body : M.Simulates D E) :
    M.Simulates
      (fun s last => (I.zero s ∧ last = I.poll s) ∨ (¬ I.zero s ∧ I.Repeats D s last))
      fun t last => (J.zero t ∧ last = J.poll t) ∨ (¬ J.zero t ∧ J.Repeats E t last) where
  functional := by
    rintro t a b (⟨zero, rfl⟩ | ⟨nonzero, ranA⟩) (⟨zero', rfl⟩ | ⟨nonzero', ranB⟩)
    · rfl
    · exact absurd zero nonzero'
    · exact absurd zero' nonzero
    · exact body.repeats.functional t a b ranA ranB
  stable := by
    rintro ending u t b covered (⟨_, rfl⟩ | ⟨_, ran⟩)
    · exact M.poll_stable covered
    · exact body.repeats.stable covered ran
  went := by
    rintro s t u near (⟨zero, polled⟩ | ⟨nonzero, ran⟩)
    · obtain ⟨v, polled', near'⟩ := M.poll_went near polled.symm
      exact ⟨v, .inl ⟨(M.zero_iff near).1 zero, polled'.symm⟩, near'⟩
    · obtain ⟨v, ran', near'⟩ := body.repeats.went near ran
      exact ⟨v, .inr ⟨mt (M.zero_iff near).2 nonzero, ran'⟩, near'⟩
  ended := by
    rintro s t u ending b near (⟨zero, polled⟩ | ⟨nonzero, ran⟩) (⟨zero', rfl⟩ | ⟨nonzero', ran'⟩)
    · exact M.poll_ended near polled.symm
    · exact absurd ((M.zero_iff near).1 zero) nonzero'
    · exact absurd ((M.zero_iff near).2 zero') nonzero
    · exact body.repeats.ended near ran ran'
  back := by
    rintro s t b near (⟨zero, rfl⟩ | ⟨nonzero, ran⟩)
    · exact ⟨_, .inl ⟨(M.zero_iff near).2 zero, rfl⟩⟩
    · obtain ⟨a, ran'⟩ := body.repeats.back near ran
      exact ⟨a, .inr ⟨mt (M.zero_iff near).1 nonzero, ran'⟩⟩

end Simulates

/-! ## Programs -/

variable {M}

/-- What becomes of corresponding states matches, if anything does become of the second. -/
theorem Simulates.matched {D : σ → Fate σ → Prop} {E : τ → Fate τ → Prop}
    (sim : M.Simulates D E) {s : σ} {t : τ} {a : Fate σ} {b : Fate τ} (near : M.near s t)
    (ran : D s a) (ran' : E t b) : M.Matched a b := by
  cases a with
  | went u =>
    obtain ⟨v, ran'', near'⟩ := sim.went near ran
    exact ⟨v, sim.functional _ _ _ ran' ran'', near'⟩
  | ended ending u => exact sim.ended near ran ran'

private theorem simulates_congr {D D' : σ → Fate σ → Prop} {E E' : τ → Fate τ → Prop}
    (sim : M.Simulates D' E') (same : ∀ s last, D s last ↔ D' s last)
    (same' : ∀ t last, E t last ↔ E' t last) : M.Simulates D E := by
  have first : D = D' := funext fun s => funext fun last => propext (same s last)
  have second : E = E' := funext fun t => funext fun last => propext (same' t last)
  rwa [first, second]

theorem refines_nil : M.Refines [] [] where
  functional := J.runs_functional []
  stable := fun covered ran => M.stable_runs [] covered ran
  went := by
    intro s t u near ran
    cases (I.runs_nil ..).1 ran
    exact ⟨t, (J.runs_nil ..).2 rfl, near⟩
  ended := by
    intro s t u ending b near ran
    cases (I.runs_nil ..).1 ran
  back := fun _ _ => ⟨_, (I.runs_nil ..).2 rfl⟩

/-- Programs that answer for others do so one after the other. -/
theorem refines_append {p p' q q' : Block} (front : M.Refines p p') (back : M.Refines q q') :
    M.Refines (p ++ q) (p' ++ q') :=
  simulates_congr (front.sequence back) (I.runs_append p q) (J.runs_append p' q')

/-- A loop answers for a loop if its body does. -/
theorem refines_loop {body body' : Block} (inner : M.Refines body body') :
    M.Refines [.loop body] [.loop body'] := by
  exact simulates_congr inner.loop (I.runs_loop body) (J.runs_loop body')

/-- A node answers for another if their actions match. -/
theorem refines_single {node node' : Node} (single : node.isSingle = true)
    (single' : node'.isSingle = true)
    (matched : ∀ {s t}, M.near s t → M.Matched (I.act node s) (J.act node' t)) :
    M.Refines [node] [node'] := by
  refine simulates_congr (Simulates.of_matched matched (M.act_stable node')) (fun s last => ?_)
    fun t last => ?_
  · rw [Interpretation.runs_singleton, Interpretation.runsNode_single _ single]
  · rw [Interpretation.runs_singleton, Interpretation.runsNode_single _ single']

/-- A scan answers for a scan if its moves do. -/
theorem refines_scan {step step' : Int}
    (matched : ∀ {s t}, M.near s t → M.Matched (I.act (.move step) s) (J.act (.move step') t)) :
    M.Refines [.scanLoop step] [.scanLoop step'] := by
  refine simulates_congr (Simulates.of_matched matched (M.act_stable (.move step'))).repeats
    (fun s last => ?_) fun t last => ?_
  · rw [Interpretation.runs_singleton, Interpretation.runsNode_scanLoop]
  · rw [Interpretation.runs_singleton, Interpretation.runsNode_scanLoop]

/-- If the actions of every node match, every program answers for itself. -/
theorem refines_same
    (matched : ∀ (node : Node) {s t}, M.near s t → M.Matched (I.act node s) (J.act node t))
    (block : Block) : M.Refines block block := by
  induction block using Node.block_induction with
  | nil => exact refines_nil
  | loop body rest ihBody ihRest => exact refines_append (refines_loop ihBody) ihRest
  | single node rest notLoop ihRest =>
    have head : M.Refines [node] [node] := by
      have here := @matched node
      cases node with
      | loop body => exact absurd rfl (notLoop body)
      | scanLoop step => exact refines_scan (matched (.move step))
      | _ => exact refines_single rfl rfl here
    exact refines_append head ihRest

/-- Programs that both have a fate, where the two match, answer for each other. -/
theorem refines_of_fates {p q : Block}
    (fates : ∀ {s t}, M.near s t → ∃ a b, I.runs p s a ∧ J.runs q t b ∧ M.Matched a b) :
    M.Refines p q where
  functional := J.runs_functional q
  stable := fun covered ran => M.stable_runs q covered ran
  went := by
    intro s t u near ran
    obtain ⟨a, b, ranA, ranB, matched⟩ := fates near
    cases I.runs_functional p s _ _ ran ranA
    obtain ⟨v, rfl, near'⟩ := matched
    exact ⟨v, ranB, near'⟩
  ended := by
    intro s t u ending b near ran ran'
    obtain ⟨a, b, ranA, ranB, matched⟩ := fates near
    cases I.runs_functional p s _ _ ran ranA
    cases J.runs_functional q t _ _ ran' ranB
    exact matched
  back := by
    intro s t b near _
    obtain ⟨a, _, ranA, _⟩ := fates near
    exact ⟨a, ranA⟩

/-- Answering for a program that answers for another, where one interpretation is matched with
itself. -/
theorem refines_trans {M : Matching I I} (refl : ∀ {s t}, M.near s t → M.near s s)
    (trans : ∀ {s t u}, M.near s t → M.near t u → M.near s u)
    (join : ∀ {ending u a b}, M.covers ending u a → M.Matched a b → M.covers ending u b)
    {p q r : Block} (first : M.Refines p q) (second : M.Refines q r) : M.Refines p r where
  functional := second.functional
  stable := second.stable
  went := by
    intro s t u near ran
    obtain ⟨v, ranQ, near'⟩ := first.went (refl near) ran
    obtain ⟨w, ranR, near''⟩ := second.went near ranQ
    exact ⟨w, ranR, trans near' near''⟩
  ended := by
    intro s t u ending b near ran ranR
    -- The program in the middle has an end too, and with it something to compare with.
    obtain ⟨a, ranQ⟩ := second.back near ranR
    exact join (first.ended (refl near) ran ranQ) (second.matched near ranQ ranR)
  back := by
    intro s t b near ranR
    obtain ⟨a, ranQ⟩ := second.back near ranR
    exact first.back (refl near) ranQ

end Matching

end TapeMachine
