import Branchwise.Body.Tree
import Mathlib.Tactic

/-!
# Runs of a statement tree

What a function body does is the set of its runs.  A run takes branches, numbered in the order of
the text, and completes in one of four ways.  Every decision may go either way each time it is met.
-/

namespace Branchwise

open List

inductive Completion where
  | normal
  | break
  | continue
  | return
deriving DecidableEq, Repr, Inhabited

/-- The runs of a piece of a program: the branches that a run takes, and how it completes. -/
abbrev Behaviour := List Nat → Completion → Prop

namespace Behaviour

def ends (c : Completion) : Behaviour := fun bs e => bs = [] ∧ e = c

/-- Goes on with a second piece where the first one completes normally. -/
def andThen (p q : Behaviour) : Behaviour := fun bs e =>
  (p bs e ∧ e ≠ .normal) ∨ ∃ bs₁ bs₂, p bs₁ .normal ∧ q bs₂ e ∧ bs = bs₁ ++ bs₂

def taking (b : Nat) (p : Behaviour) : Behaviour := fun bs e => ∃ bs', p bs' e ∧ bs = b :: bs'

/-- Decides between two pieces; the second outcome has the number after the first. -/
def decides (b : Nat) (p q : Behaviour) : Behaviour := fun bs e =>
  taking b p bs e ∨ taking (b + 1) q bs e

inductive whileLoop (b : Nat) (body : Behaviour) : Behaviour
  | stop : whileLoop b body [b + 1] .normal
  | next {bs bs' : List Nat} {c e : Completion} : body bs c → c = .normal ∨ c = .continue →
      whileLoop b body bs' e → whileLoop b body (b :: (bs ++ bs')) e
  | broken {bs : List Nat} : body bs .break → whileLoop b body (b :: bs) .normal
  | returned {bs : List Nat} : body bs .return → whileLoop b body (b :: bs) .return

def doLoop (b : Nat) (body : Behaviour) : Behaviour := fun bs e =>
  (∃ bs₁ bs₂ c, body bs₁ c ∧ (c = .normal ∨ c = .continue) ∧ whileLoop b body bs₂ e ∧
    bs = bs₁ ++ bs₂) ∨
  (body bs .break ∧ e = .normal) ∨ (body bs .return ∧ e = .return)

def inSwitch (p : Behaviour) : Behaviour := fun bs e =>
  (p bs .break ∧ e = .normal) ∨ (p bs e ∧ e ≠ .break)

end Behaviour

def NodeKind.completion : NodeKind → Completion
  | .break => .break
  | .continue => .continue
  | .return => .return
  | _ => .normal

def Json.isTextual : Json → Bool
  | .str _ => true
  | j => j.isVoid

namespace Tree

open Behaviour

/-! ## Conditional expressions -/

def ternaryCount (t : Tree) : Nat := (t.collect .ternary).length

mutual

/-- The decisions on the conditional expressions in an expression: those that stand beside each
other are made in order, and one inside another only if it is in the chosen part. -/
def Decides : Tree → Nat → Behaviour
  | .node l ts, b => if l.kind = .ternary then DecidesOne ts b else DecidesAll ts b

def DecidesAll : List Tree → Nat → Behaviour
  | [], _ => ends .normal
  | t :: ts, b => (Decides t b).andThen (DecidesAll ts (b + 2 * t.ternaryCount))

/-- The decision on a conditional expression with the given parts. -/
def DecidesOne : List Tree → Nat → Behaviour
  | [], b => decides b (ends .normal) (ends .normal)
  | [x], b => decides b (Decides x (b + 2)) (ends .normal)
  | x :: y :: _, b => decides b (Decides x (b + 2)) (Decides y (b + 2 + 2 * x.ternaryCount))

end

/-! ## Numbers of branches -/

mutual

/-- The number of case labels that a switch has in a part of its body. -/
def caseCount : Tree → Nat
  | .node l ts =>
    match l.kind with
    | .case => caseCountAll ts + 1
    | .default | .compound => caseCountAll ts
    | _ => 0

def caseCountAll : List Tree → Nat
  | [] => 0
  | t :: ts => caseCount t + caseCountAll ts

end

mutual

def hasDefault : Tree → Bool
  | .node l ts =>
    match l.kind with
    | .default => true
    | .case | .compound => hasDefaultAll ts
    | _ => false

def hasDefaultAll : List Tree → Bool
  | [] => false
  | t :: ts => hasDefault t || hasDefaultAll ts

end

mutual

def branchCount : Tree → Nat
  | .node l ts =>
    match l.kind with
    | .compound | .case | .default | .label => branchCountAll ts
    | .ifElse | .whileLoop | .doLoop | .forLoop => 2 + branchCountAll ts
    | .switch => caseCountAll ts + 1 + branchCountAll ts
    | _ => 2 * (Tree.node l ts).ternaryCount

def branchCountAll : List Tree → Nat
  | [] => 0
  | t :: ts => branchCount t + branchCountAll ts

end

/-! ## Statements -/

mutual

/-- The runs of a statement whose first branch has the given number. -/
def Runs : Tree → Nat → Behaviour
  | .node l ts, b =>
    match l.kind with
    | .compound | .case | .default | .label => RunsAll ts b
    | .ifElse => RunsIf ts b
    | .whileLoop | .forLoop => whileLoop b (RunsAll ts (b + 2))
    | .doLoop => doLoop (b + branchCountAll ts) (RunsAll ts b)
    | .switch => inSwitch fun bs e =>
      let default := b + caseCountAll ts
      ∃ arm bs', bs = arm :: bs' ∧
        (EntersAll ts (default + 1) b default arm bs' e ∨
          hasDefaultAll ts = false ∧ arm = default ∧ ends .normal bs' e)
    | kind => (Decides (.node l ts) b).andThen (ends kind.completion)

def RunsAll : List Tree → Nat → Behaviour
  | [], _ => ends .normal
  | t :: ts, b => (Runs t b).andThen (RunsAll ts (b + t.branchCount))

def RunsIf : List Tree → Nat → Behaviour
  | [], b => decides b (ends .normal) (ends .normal)
  | [x], b => decides b (Runs x (b + 2)) (ends .normal)
  | x :: y :: _, b => decides b (Runs x (b + 2)) (Runs y (b + 2 + x.branchCount))

/-- The runs of a part of the body of a switch that start at the label of a branch.  Its own
branches start with `b`, those of its case labels with `case`. -/
def Enters : Tree → (b case default arm : Nat) → Behaviour
  | .node l ts, b, case, default, arm =>
    match l.kind with
    | .case => fun bs e =>
      arm = case ∧ RunsAll ts b bs e ∨ EntersAll ts b (case + 1) default arm bs e
    | .default => fun bs e =>
      arm = default ∧ RunsAll ts b bs e ∨ EntersAll ts b case default arm bs e
    | .compound => EntersAll ts b case default arm
    | _ => fun _ _ => False

def EntersAll : List Tree → (b case default arm : Nat) → Behaviour
  | [], _, _, _, _ => fun _ _ => False
  | t :: ts, b, case, default, arm => fun bs e =>
    (Enters t b case default arm).andThen (RunsAll ts (b + t.branchCount)) bs e ∨
      EntersAll ts (b + t.branchCount) (case + t.caseCount) default arm bs e

end

/-! ## Structured bodies -/

/-- A statement without inner statements, in which no conditional expression is part of another. -/
def isPlain (t : Tree) : Bool :=
  t.walk.all fun n =>
    n.kind ≠ .case && n.kind ≠ .default &&
      (n.kind ≠ .ternary || n.children.all fun c => c.ternaryCount = 0)

mutual

/-- A statement without jumps to labels, of which every conditional statement has at most two parts
and every loop at most one.  Case and default labels stand at the top level of the body of a switch,
or of a compound statement there. -/
def isStructured : Tree → (inSwitch : Bool) → Bool
  | .node l ts, inSwitch =>
    match l.kind with
    | .compound => areStructured ts inSwitch
    | .ifElse => ts.length ≤ 2 && areStructured ts false
    | .whileLoop | .doLoop | .forLoop => ts.length ≤ 1 && areStructured ts false
    | .switch => areStructured ts true
    | .case | .default => inSwitch && areStructured ts true
    | .goto | .label => false
    | _ => (Tree.node l ts).isPlain

def areStructured : List Tree → (inSwitch : Bool) → Bool
  | [], _ => true
  | t :: ts, inSwitch => isStructured t inSwitch && areStructured ts inSwitch

end

def hasTexts (t : Tree) : Bool :=
  t.walk.all fun n =>
    n.label.condition.isTextual && n.label.text.isTextual && n.label.value.isTextual

end Tree

/-! ## Decisions beside each other -/

namespace Behaviour

theorem ends_andThen (p : Behaviour) : (ends .normal).andThen p = p := by
  funext bs e
  apply propext
  constructor
  · rintro (⟨⟨_, he⟩, hne⟩ | ⟨bs1, bs2, ⟨rfl, _⟩, hp, rfl⟩)
    · exact absurd he hne
    · exact hp
  · intro hp
    exact .inr ⟨[], bs, ⟨rfl, rfl⟩, hp, rfl⟩

theorem andThen_ends (p : Behaviour) : p.andThen (ends .normal) = p := by
  funext bs e
  apply propext
  constructor
  · rintro (⟨hp, _⟩ | ⟨bs1, bs2, hp, ⟨rfl, rfl⟩, rfl⟩)
    · exact hp
    · rw [append_nil]
      exact hp
  · intro hp
    by_cases he : e = .normal
    · subst he
      exact .inr ⟨bs, [], hp, ⟨rfl, rfl⟩, (append_nil bs).symm⟩
    · exact .inl ⟨hp, he⟩

theorem andThen_assoc (p q r : Behaviour) : (p.andThen q).andThen r = p.andThen (q.andThen r) := by
  funext bs e
  apply propext
  constructor
  · rintro (⟨⟨hp, he⟩ | ⟨bs1, bs2, hp, hq, rfl⟩, hne⟩ | ⟨bs1, bs2, ⟨hp, he⟩ | h, hr, rfl⟩)
    · exact .inl ⟨hp, he⟩
    · exact .inr ⟨bs1, bs2, hp, .inl ⟨hq, hne⟩, rfl⟩
    · exact absurd rfl he
    · obtain ⟨bs3, bs4, hp, hq, rfl⟩ := h
      exact .inr ⟨bs3, bs4 ++ bs2, hp, .inr ⟨bs4, bs2, hq, hr, rfl⟩, append_assoc _ _ _⟩
  · rintro (⟨hp, he⟩ | ⟨bs1, bs2, hp, ⟨hq, he⟩ | h, rfl⟩)
    · exact .inl ⟨.inl ⟨hp, he⟩, he⟩
    · exact .inl ⟨.inr ⟨bs1, bs2, hp, hq, rfl⟩, he⟩
    · obtain ⟨bs3, bs4, hq, hr, rfl⟩ := h
      exact .inr ⟨bs1 ++ bs3, bs4, .inr ⟨bs1, bs3, hp, hq, rfl⟩, hr, (append_assoc _ _ _).symm⟩

theorem whileLoop_eq (b : Nat) (body : Behaviour) :
    whileLoop b body = decides b (doLoop b body) (ends .normal) := by
  funext bs e
  apply propext
  constructor
  · rintro (_ | ⟨hp, hc, h⟩ | hp | hp)
    · exact .inr ⟨[], ⟨rfl, rfl⟩, rfl⟩
    · exact .inl ⟨_, .inl ⟨_, _, _, hp, hc, h, rfl⟩, rfl⟩
    · exact .inl ⟨_, .inr (.inl ⟨hp, rfl⟩), rfl⟩
    · exact .inl ⟨_, .inr (.inr ⟨hp, rfl⟩), rfl⟩
  · rintro (⟨_, ⟨_, _, _, hp, hc, h, rfl⟩ | ⟨hp, rfl⟩ | ⟨hp, rfl⟩, rfl⟩ | ⟨_, ⟨rfl, rfl⟩, rfl⟩)
    exacts [.next hp hc h, .broken hp, .returned hp, .stop]

theorem whileLoop_completion {b : Nat} {body : Behaviour} {bs : List Nat} {e : Completion}
    (h : whileLoop b body bs e) : e = .normal ∨ e = .return := by
  induction h with
  | stop | broken _ => exact .inl rfl
  | next _ _ _ ih => exact ih
  | returned _ => exact .inr rfl

theorem doLoop_completion {b : Nat} {body : Behaviour} {bs : List Nat} {e : Completion}
    (h : doLoop b body bs e) : e = .normal ∨ e = .return := by
  rcases h with ⟨_, _, _, _, _, h, _⟩ | ⟨_, h⟩ | ⟨_, h⟩
  · exact whileLoop_completion h
  · exact .inl h
  · exact .inr h

/-- Some decisions one after the other whose outcomes lead to the same place. -/
def choices : Nat → Nat → Behaviour
  | 0, _ => ends .normal
  | n + 1, b => (decides b (ends .normal) (ends .normal)).andThen (choices n (b + 2))

theorem choices_add (m n b : Nat) :
    choices (m + n) b = (choices m b).andThen (choices n (b + 2 * m)) := by
  induction m generalizing b with
  | zero =>
    rw [Nat.zero_add, choices, ends_andThen]
    rfl
  | succ m ih =>
    rw [Nat.succ_add, choices, choices, andThen_assoc, ih]
    congr 3
    omega

end Behaviour

namespace Tree

open Behaviour

theorem ternaryCount_node (l : Label) (ts : List Tree) :
    (Tree.node l ts).ternaryCount
      = (if l.kind = .ternary then 1 else 0) + (ts.map ternaryCount).sum := by
  have hall : ∀ ts : List Tree, ((ts.flatMap walk).filter fun n => n.kind = .ternary).length
      = (ts.map ternaryCount).sum := by
    intro ts
    induction ts with
    | nil => rfl
    | cons t ts ih =>
      rw [flatMap_cons, filter_append, length_append, ih, map_cons]
      rfl
  unfold ternaryCount collect
  rw [walk_node, filter_cons]
  have hk : (Tree.node l ts).kind = l.kind := rfl
  by_cases h : l.kind = .ternary
  · rw [if_pos (by simpa [hk] using h), if_pos h, length_cons, hall]
    exact Nat.add_comm _ _
  · rw [if_neg (by simpa [hk] using h), if_neg h, hall, Nat.zero_add]
    rfl

def TernariesApart (t : Tree) : Prop :=
  ∀ n ∈ t.walk, n.kind = .ternary → ∀ c ∈ n.children, c.ternaryCount = 0

mutual

theorem decides_eq_choices (t : Tree) (b : Nat) (h : t.TernariesApart) :
    Decides t b = choices t.ternaryCount b := by
  obtain ⟨l, ts⟩ := t
  have hts : ∀ t ∈ ts, t.TernariesApart := by
    intro t ht n hn
    refine h n ?_
    rw [walk_node]
    exact mem_cons_of_mem _ (mem_flatMap.mpr ⟨t, ht, hn⟩)
  rw [ternaryCount_node]
  by_cases hk : l.kind = .ternary
  · have hfree : ∀ c ∈ ts, c.ternaryCount = 0 := fun c hc =>
      h (.node l ts) (by rw [walk_node]; exact mem_cons_self) hk c hc
    have hsum : (ts.map ternaryCount).sum = 0 := by
      refine sum_eq_zero fun n hn => ?_
      obtain ⟨c, hc, rfl⟩ := mem_map.mp hn
      exact hfree c hc
    rw [hsum]
    simp only [Decides, hk]
    exact decidesOne_eq_choices ts b hts hfree
  · simp only [Decides, hk, if_false, Nat.zero_add]
    exact decidesAll_eq_choices ts b hts

theorem decidesAll_eq_choices (ts : List Tree) (b : Nat) (h : ∀ t ∈ ts, t.TernariesApart) :
    DecidesAll ts b = choices (ts.map ternaryCount).sum b := by
  match ts with
  | [] => rfl
  | t :: ts =>
    rw [DecidesAll, map_cons, sum_cons, choices_add, decides_eq_choices t b (h t mem_cons_self),
      decidesAll_eq_choices ts _ fun t' ht => h t' (mem_cons_of_mem _ ht)]

theorem decidesOne_eq_choices (ts : List Tree) (b : Nat) (h : ∀ t ∈ ts, t.TernariesApart)
    (hfree : ∀ t ∈ ts, t.ternaryCount = 0) : DecidesOne ts b = choices 1 b := by
  have hone : choices 1 b = decides b (ends .normal) (ends .normal) := andThen_ends _
  rw [hone]
  match ts with
  | [] => rfl
  | [x] =>
    rw [DecidesOne, decides_eq_choices x _ (h x mem_cons_self), hfree x mem_cons_self]
    rfl
  | x :: y :: ts =>
    have hy : y ∈ x :: y :: ts := mem_cons_of_mem _ mem_cons_self
    rw [DecidesOne, decides_eq_choices x _ (h x mem_cons_self),
      decides_eq_choices y _ (h y hy), hfree x mem_cons_self, hfree y hy]
    rfl

end

theorem ternariesApart_of_isPlain {t : Tree} (h : t.isPlain) : t.TernariesApart := by
  intro n hn hk c hc
  have hn' := all_eq_true.mp h n hn
  simp only [Bool.and_eq_true, Bool.or_eq_true, decide_eq_true_eq, all_eq_true] at hn'
  rcases hn'.2 with hne | hall
  · exact absurd hk hne
  · exact hall c hc

end Tree

end Branchwise
