import TapeMachine.Program.Node
import TapeMachine.Run.Rig

/-!
# Interpretations of programs

What a program does is fixed by three things: what a single node does to a
state, what a poll does, and in which states the current cell is zero. An
`Interpretation` gives these three for some type of states, and `runs` is the
meaning of a block under it, by recursion on the block. The executor is one
interpretation and a machine with exact arithmetic is another; whatever is
proved here holds of both.
-/

namespace TapeMachine

/-- What becomes of a state: the run goes on with it, or ends in it. -/
inductive Fate (σ : Type) where
  | went (state : σ)
  | ended (ending : Ending) (state : σ)

namespace Fate

variable {σ : Type}

/-- The state, whether the run goes on or not. -/
def state : Fate σ → σ
  | .went s => s
  | .ended _ s => s

/-- Goes on as `next` says, unless the run has ended. -/
def Leads (next : σ → Fate σ → Prop) : Fate σ → Fate σ → Prop
  | .went s, last => next s last
  | .ended ending s, last => last = .ended ending s

@[simp] theorem leads_went (next : σ → Fate σ → Prop) (s : σ) (last : Fate σ) :
    Leads next (.went s) last ↔ next s last := Iff.rfl

@[simp] theorem leads_ended (next : σ → Fate σ → Prop) (ending : Ending) (s : σ)
    (last : Fate σ) : Leads next (.ended ending s) last ↔ last = .ended ending s := Iff.rfl

end Fate

/-- A way to run programs. The action is used for nodes other than loops and
scans. -/
structure Interpretation (σ : Type) where
  zero : σ → Prop
  poll : σ → Fate σ
  act : Node → σ → Fate σ

namespace Interpretation

variable {σ : Type} (I : Interpretation σ)

/-- While the current cell is not zero: a poll, and then a round. -/
inductive Repeats (round : σ → Fate σ → Prop) : σ → Fate σ → Prop
  | done {s : σ} : I.zero s → Repeats round s (.went s)
  | cut {s t : σ} {ending : Ending} :
      ¬ I.zero s → I.poll s = .ended ending t → Repeats round s (.ended ending t)
  | failed {s t u : σ} {ending : Ending} :
      ¬ I.zero s → I.poll s = .went t → round t (.ended ending u) →
        Repeats round s (.ended ending u)
  | again {s t u : σ} {last : Fate σ} :
      ¬ I.zero s → I.poll s = .went t → round t (.went u) → Repeats round u last →
        Repeats round s last

mutual

/-- What becomes of a state when a node is run on it. A loop that finds a zero
polls all the same; otherwise its polls are those before its rounds. -/
def runsNode : Node → σ → Fate σ → Prop
  | .loop body => fun s last =>
    (I.zero s ∧ last = I.poll s) ∨ (¬ I.zero s ∧ I.Repeats (runs body) s last)
  | .scanLoop step => I.Repeats fun s last => last = I.act (.move step) s
  | node => fun s last => last = I.act node s

/-- What becomes of a state when a block is run on it: its nodes are run one
after the other, up to the first that ends the run. -/
def runs : Block → σ → Fate σ → Prop
  | [] => fun s last => last = .went s
  | node :: rest => fun s last => ∃ first, runsNode node s first ∧ first.Leads (runs rest) last

end

/-! ## Laws -/

@[simp] theorem runs_nil (s : σ) (last : Fate σ) : I.runs [] s last ↔ last = .went s := by
  rw [runs]

theorem runs_cons (node : Node) (rest : Block) (s : σ) (last : Fate σ) :
    I.runs (node :: rest) s last ↔
      ∃ first, I.runsNode node s first ∧ first.Leads (I.runs rest) last := by
  rw [runs]

/-- A loop is a round of `Repeats`, but for the poll of a loop that is not
entered. -/
theorem runsNode_loop (body : Block) (s : σ) (last : Fate σ) :
    I.runsNode (.loop body) s last ↔
      (I.zero s ∧ last = I.poll s) ∨ (¬ I.zero s ∧ I.Repeats (I.runs body) s last) := by
  rw [runsNode]

theorem runsNode_scanLoop (step : Int) (s : σ) (last : Fate σ) :
    I.runsNode (.scanLoop step) s last ↔
      I.Repeats (fun s last => last = I.act (.move step) s) s last := by
  rw [runsNode]

end Interpretation

/-- A node that is neither a loop nor a scan. -/
def Node.isSingle : Node → Bool
  | .loop _ | .scanLoop _ => false
  | _ => true

namespace Interpretation

variable {σ : Type} (I : Interpretation σ)

theorem runsNode_single {node : Node} (single : node.isSingle = true) (s : σ) (last : Fate σ) :
    I.runsNode node s last ↔ last = I.act node s := by
  cases node with
  | loop body => exact absurd single Bool.false_ne_true
  | scanLoop step => exact absurd single Bool.false_ne_true
  | _ => simp only [runsNode]

/-- A block of one node runs like the node. -/
@[simp] theorem runs_singleton (node : Node) (s : σ) (last : Fate σ) :
    I.runs [node] s last ↔ I.runsNode node s last := by
  rw [runs_cons]
  constructor
  · rintro ⟨first, ran, leads⟩
    cases first with
    | went t => exact (I.runs_nil t last).1 leads ▸ ran
    | ended ending t => exact leads ▸ ran
  · intro ran
    refine ⟨last, ran, ?_⟩
    cases last with
    | went t => exact (I.runs_nil t _).2 rfl
    | ended ending t => rfl

theorem runs_loop (body : Block) (s : σ) (last : Fate σ) :
    I.runs [.loop body] s last ↔
      (I.zero s ∧ last = I.poll s) ∨ (¬ I.zero s ∧ I.Repeats (I.runs body) s last) := by
  rw [runs_singleton, runsNode_loop]

/-- Two blocks in a row run one after the other. -/
theorem runs_append (front back : Block) (s : σ) (last : Fate σ) :
    I.runs (front ++ back) s last ↔
      ∃ first, I.runs front s first ∧ first.Leads (I.runs back) last := by
  induction front generalizing s last with
  | nil => simp
  | cons node rest ih =>
    rw [List.cons_append, runs_cons]
    constructor
    · rintro ⟨first, ran, leads⟩
      cases first with
      | went t =>
        obtain ⟨mid, ranRest, leads⟩ := (ih t last).1 leads
        exact ⟨mid, (I.runs_cons ..).2 ⟨.went t, ran, ranRest⟩, leads⟩
      | ended ending t =>
        exact ⟨.ended ending t, (I.runs_cons ..).2 ⟨.ended ending t, ran, rfl⟩, leads⟩
    · rintro ⟨mid, ranFront, leads⟩
      obtain ⟨first, ran, leadsRest⟩ := (I.runs_cons ..).1 ranFront
      refine ⟨first, ran, ?_⟩
      cases first with
      | went t => exact (ih t last).2 ⟨mid, leadsRest, leads⟩
      | ended ending t =>
        rw [Fate.leads_ended] at leadsRest ⊢
        subst leadsRest
        exact leads

/-! ## Repetition -/

/-- Where the current cell is not zero, a repetition is a poll, a round and the
repetition of the round, as far as they go. -/
theorem repeats_iff_of_nonzero {round : σ → Fate σ → Prop} {s : σ} (nonzero : ¬ I.zero s)
    {last : Fate σ} : I.Repeats round s last ↔
      (I.poll s).Leads (fun t last => ∃ mid, round t mid ∧ mid.Leads (I.Repeats round) last)
        last := by
  constructor
  · intro ran
    cases ran with
    | done zero => exact absurd zero nonzero
    | cut _ polled => rw [polled, Fate.leads_ended]
    | failed _ polled ran =>
      rw [polled, Fate.leads_went]
      exact ⟨_, ran, rfl⟩
    | again _ polled ran more =>
      rw [polled, Fate.leads_went]
      exact ⟨_, ran, more⟩
  · intro leads
    cases polled : I.poll s with
    | ended ending t =>
      rw [polled, Fate.leads_ended] at leads
      rw [leads]
      exact .cut nonzero polled
    | went t =>
      rw [polled, Fate.leads_went] at leads
      obtain ⟨mid, ran, more⟩ := leads
      cases mid with
      | went u => exact .again nonzero polled ran more
      | ended ending u =>
        rw [Fate.leads_ended] at more
        rw [more]
        exact .failed nonzero polled ran

/-- A repetition has a fate if, after a poll that goes through, a round has one and the
repetition goes on from there. -/
theorem exists_repeats_of_nonzero {round : σ → Fate σ → Prop} {s : σ} (nonzero : ¬ I.zero s)
    (next : ∀ t, I.poll s = .went t → ∃ mid, round t mid ∧
      ∀ u, mid = .went u → ∃ last, I.Repeats round u last) :
    ∃ last, I.Repeats round s last := by
  cases polled : I.poll s with
  | ended ending t => exact ⟨_, .cut nonzero polled⟩
  | went t =>
    obtain ⟨mid, ran, more⟩ := next t polled
    cases mid with
    | ended ending u => exact ⟨_, .failed nonzero polled ran⟩
    | went u =>
      obtain ⟨last, more⟩ := more u rfl
      exact ⟨last, .again nonzero polled ran more⟩

/-! ## Determinism -/

/-- If a round has one outcome, so has its repetition. -/
theorem Repeats.functional {round : σ → Fate σ → Prop}
    (functional : ∀ s a b, round s a → round s b → a = b) {s : σ} {a b : Fate σ}
    (ranA : I.Repeats round s a) (ranB : I.Repeats round s b) : a = b := by
  induction ranA generalizing b with
  | done zero =>
    cases ranB with
    | done => rfl
    | cut nonzero | failed nonzero | again nonzero => exact absurd zero nonzero
  | cut nonzero polled =>
    rw [I.repeats_iff_of_nonzero nonzero, polled] at ranB
    exact ranB.symm
  | failed nonzero polled ran =>
    rw [I.repeats_iff_of_nonzero nonzero, polled] at ranB
    obtain ⟨mid, ran', more⟩ := ranB
    cases functional _ _ _ ran ran'
    exact more.symm
  | again nonzero polled ran _ ih =>
    rw [I.repeats_iff_of_nonzero nonzero, polled] at ranB
    obtain ⟨mid, ran', more⟩ := ranB
    cases functional _ _ _ ran ran'
    exact ih more

/-- If each of two runs in a row has one outcome, so have they together. -/
private theorem leads_functional {next : σ → Fate σ → Prop}
    (functional : ∀ s a b, next s a → next s b → a = b) {first a b : Fate σ}
    (leadsA : first.Leads next a) (leadsB : first.Leads next b) : a = b := by
  cases first with
  | went t => exact functional t a b leadsA leadsB
  | ended ending t => rw [Fate.leads_ended] at leadsA leadsB; rw [leadsA, leadsB]

/-- A block has at most one outcome. -/
theorem runs_functional (block : Block) (s : σ) (a b : Fate σ)
    (ranA : I.runs block s a) (ranB : I.runs block s b) : a = b := by
  induction block using Node.block_induction generalizing s a b with
  | nil => rw [(I.runs_nil s a).1 ranA, (I.runs_nil s b).1 ranB]
  | loop body rest ihBody ihRest =>
    obtain ⟨first, ran, leads⟩ := (I.runs_cons ..).1 ranA
    obtain ⟨first', ran', leads'⟩ := (I.runs_cons ..).1 ranB
    have same : first = first' := by
      rcases (I.runsNode_loop ..).1 ran with ⟨zero, rfl⟩ | ⟨nonzero, repeated⟩
      · rcases (I.runsNode_loop ..).1 ran' with ⟨_, rfl⟩ | ⟨nonzero, _⟩
        · rfl
        · exact absurd zero nonzero
      · rcases (I.runsNode_loop ..).1 ran' with ⟨zero, _⟩ | ⟨_, repeated'⟩
        · exact absurd zero nonzero
        · exact repeated.functional I ihBody repeated'
    subst same
    exact leads_functional ihRest leads leads'
  | single node rest notLoop ihRest =>
    obtain ⟨first, ran, leads⟩ := (I.runs_cons ..).1 ranA
    obtain ⟨first', ran', leads'⟩ := (I.runs_cons ..).1 ranB
    have same : first = first' := by
      cases node with
      | loop body => exact absurd rfl (notLoop body)
      | scanLoop step =>
        rw [runsNode_scanLoop] at ran ran'
        exact ran.functional I (fun _ _ _ ranA ranB => ranA.trans ranB.symm) ran'
      | _ =>
        rw [runsNode_single I rfl] at ran ran'
        exact ran.trans ran'.symm
    subst same
    exact leads_functional ihRest leads leads'

/-! ## What every run keeps -/

private theorem Repeats.relates {round : σ → Fate σ → Prop} {Q : σ → Fate σ → Prop}
    (refl : ∀ s, Q s (.went s)) (trans : ∀ s t last, Q s (.went t) → Q t last → Q s last)
    (poll : ∀ s, Q s (I.poll s)) (related : ∀ s last, round s last → Q s last)
    {s : σ} {last : Fate σ} (ran : I.Repeats round s last) : Q s last := by
  induction ran with
  | done => exact refl _
  | @cut s t ending _ polled => exact polled ▸ poll s
  | @failed s t u ending _ polled ran =>
    exact trans _ _ _ (polled ▸ poll s) (related _ _ ran)
  | @again s t u last _ polled ran _ ih =>
    exact trans _ _ _ (trans _ _ _ (polled ▸ poll s) (related _ _ ran)) ih

private theorem leads_relates {next : σ → Fate σ → Prop} {Q : σ → Fate σ → Prop}
    (trans : ∀ s t last, Q s (.went t) → Q t last → Q s last) {s : σ} {first last : Fate σ}
    (related : Q s first) (more : ∀ t last, next t last → Q t last)
    (leads : first.Leads next last) : Q s last := by
  cases first with
  | went t => exact trans _ _ _ related (more t last leads)
  | ended ending t =>
    rw [Fate.leads_ended] at leads
    rwa [leads]

/-- What holds between a state and its fate for polls and actions, and is handed on
from one to the next, holds for every block. -/
theorem runs_relates {Q : σ → Fate σ → Prop} (refl : ∀ s, Q s (.went s))
    (trans : ∀ s t last, Q s (.went t) → Q t last → Q s last) (poll : ∀ s, Q s (I.poll s))
    (act : ∀ node s, Q s (I.act node s)) {block : Block} {s : σ} {last : Fate σ}
    (ran : I.runs block s last) : Q s last := by
  induction block using Node.block_induction generalizing s last with
  | nil =>
    rw [runs_nil] at ran
    rw [ran]
    exact refl s
  | loop body rest ihBody ihRest =>
    obtain ⟨first, ran, leads⟩ := (I.runs_cons ..).1 ran
    refine leads_relates trans ?_ (fun _ _ => ihRest) leads
    rcases (I.runsNode_loop ..).1 ran with ⟨_, rfl⟩ | ⟨_, repeated⟩
    · exact poll s
    · exact repeated.relates I refl trans poll fun _ _ => ihBody
  | single node rest notLoop ihRest =>
    obtain ⟨first, ran, leads⟩ := (I.runs_cons ..).1 ran
    refine leads_relates trans ?_ (fun _ _ => ihRest) leads
    cases node with
    | loop body => exact absurd rfl (notLoop body)
    | scanLoop step =>
      rw [runsNode_scanLoop] at ran
      refine ran.relates I refl trans poll fun s last (moved : last = _) => ?_
      rw [moved]
      exact act _ s
    | _ =>
      rw [runsNode_single I rfl] at ran
      rw [ran]
      exact act _ s

/-- Something that every poll and every round keeps is kept by the rounds. -/
theorem Repeats.preserves {round : σ → Fate σ → Prop} {R : σ → σ → Prop}
    (refl : ∀ s, R s s) (trans : ∀ s t u, R s t → R t u → R s u)
    (poll : ∀ s, R s (I.poll s).state) (kept : ∀ s last, round s last → R s last.state)
    {s : σ} {last : Fate σ} (ran : I.Repeats round s last) : R s last.state :=
  ran.relates (Q := fun s last => R s last.state) I refl (fun _ _ _ => trans _ _ _) poll kept

/-- Something that every poll and every action keeps is kept by every block. -/
theorem runs_preserves {R : σ → σ → Prop} (refl : ∀ s, R s s)
    (trans : ∀ s t u, R s t → R t u → R s u) (poll : ∀ s, R s (I.poll s).state)
    (act : ∀ node s, R s (I.act node s).state) {block : Block} {s : σ} {last : Fate σ}
    (ran : I.runs block s last) : R s last.state :=
  I.runs_relates (Q := fun s last => R s last.state) refl (fun _ _ _ => trans _ _ _) poll act ran

/-- A run ends in a way in which a poll or an action does. -/
theorem runs_ended {P : Ending → Prop} (poll : ∀ s ending t, I.poll s = .ended ending t → P ending)
    (act : ∀ node s ending t, I.act node s = .ended ending t → P ending) {block : Block} {s t : σ}
    {ending : Ending} (ran : I.runs block s (.ended ending t)) : P ending :=
  I.runs_relates (Q := fun _ last => ∀ ending t, last = .ended ending t → P ending)
    (fun _ _ _ ended => nomatch ended) (fun _ _ _ _ more => more) (fun s => poll s)
    (fun node s => act node s) ran ending t rfl

/-! ## Another interpretation -/

/-- Two interpretations do not differ in the polls and actions of a run with a good
fate. A run keeps `R`, and going back along it keeps a fate good. -/
structure Agrees (I J : Interpretation σ) (R : σ → σ → Prop) (good : Fate σ → Prop) : Prop where
  zero : ∀ s, I.zero s ↔ J.zero s
  act : ∀ node s, good (I.act node s) → J.act node s = I.act node s
  poll : ∀ s, good (I.poll s) → J.poll s = I.poll s
  back : ∀ {s last}, R s last.state → good last → good (.went s)
  refl : ∀ s, R s s
  trans : ∀ s t u, R s t → R t u → R s u
  keptPoll : ∀ s, R s (I.poll s).state
  keptAct : ∀ node s, R s (I.act node s).state

namespace Agrees

variable {I J : Interpretation σ} {R : σ → σ → Prop} {good : Fate σ → Prop}

private theorem repeats (agrees : Agrees I J R good) {round round' : σ → Fate σ → Prop}
    (kept : ∀ s last, round s last → R s last.state)
    (same : ∀ s last, round s last → good last → round' s last) {s : σ} {last : Fate σ}
    (ran : I.Repeats round s last) (ok : good last) : J.Repeats round' s last := by
  induction ran with
  | done zero => exact .done ((agrees.zero _).1 zero)
  | @cut s t ending nonzero polled =>
    have polled' := agrees.poll s (by rwa [polled])
    exact .cut (mt (agrees.zero _).2 nonzero) (polled'.trans polled)
  | @failed s t u ending nonzero polled ran =>
    have polled' := agrees.poll s (by rw [polled]; exact agrees.back (kept _ _ ran) ok)
    exact .failed (mt (agrees.zero _).2 nonzero) (polled'.trans polled) (same _ _ ran ok)
  | @again s t u last nonzero polled ran more ih =>
    have okU : good (.went u) :=
      agrees.back (more.preserves I agrees.refl agrees.trans agrees.keptPoll kept) ok
    have polled' := agrees.poll s (by rw [polled]; exact agrees.back (kept _ _ ran) okU)
    exact .again (mt (agrees.zero _).2 nonzero) (polled'.trans polled) (same _ _ ran okU) (ih ok)

private theorem kept (agrees : Agrees I J R good) (block : Block) (s : σ) (last : Fate σ)
    (ran : I.runs block s last) : R s last.state :=
  I.runs_preserves agrees.refl agrees.trans agrees.keptPoll agrees.keptAct ran

private theorem cons (agrees : Agrees I J R good) {node : Node} {rest : Block}
    (head : ∀ s first, I.runsNode node s first → good first → J.runsNode node s first)
    (tail : ∀ s last, I.runs rest s last → good last → J.runs rest s last) {s : σ}
    {last : Fate σ} (ran : I.runs (node :: rest) s last) (ok : good last) :
    J.runs (node :: rest) s last := by
  obtain ⟨first, ranNode, leads⟩ := (I.runs_cons ..).1 ran
  refine (J.runs_cons ..).2 ⟨first, ?_⟩
  cases first with
  | went t =>
    have okFirst : good (.went t) := agrees.back (agrees.kept rest t last leads) ok
    exact ⟨head s _ ranNode okFirst, tail t last leads ok⟩
  | ended ending t =>
    rw [Fate.leads_ended] at leads
    subst leads
    exact ⟨head s _ ranNode ok, rfl⟩

/-- A run with a good fate is a run of the other interpretation too. -/
theorem runs (agrees : Agrees I J R good) {block : Block} {s : σ} {last : Fate σ}
    (ran : I.runs block s last) (ok : good last) : J.runs block s last := by
  induction block using Node.block_induction generalizing s last with
  | nil =>
    rw [runs_nil] at ran ⊢
    exact ran
  | loop body rest ihBody ihRest =>
    refine agrees.cons (fun s first ran ok => ?_) (fun _ _ => ihRest) ran ok
    refine (J.runsNode_loop ..).2 ?_
    rcases (I.runsNode_loop ..).1 ran with ⟨zero, rfl⟩ | ⟨nonzero, repeated⟩
    · exact .inl ⟨(agrees.zero s).1 zero, (agrees.poll s ok).symm⟩
    · exact .inr ⟨mt (agrees.zero s).2 nonzero,
        agrees.repeats (agrees.kept body) (fun _ _ => ihBody) repeated ok⟩
  | single node rest notLoop ihRest =>
    refine agrees.cons (fun s first ran ok => ?_) (fun _ _ => ihRest) ran ok
    cases node with
    | loop body => exact absurd rfl (notLoop body)
    | scanLoop step =>
      rw [runsNode_scanLoop] at ran ⊢
      refine agrees.repeats (fun s last (moved : last = _) => ?_) (fun s last moved ok => ?_) ran ok
      · rw [moved]
        exact agrees.keptAct _ s
      · exact moved.trans (agrees.act _ s (moved ▸ ok)).symm
    | _ =>
      rw [runsNode_single _ rfl] at ran ⊢
      exact ran.trans (agrees.act _ s (ran ▸ ok)).symm

end Agrees

end Interpretation

end TapeMachine
