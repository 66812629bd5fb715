import Branchwise.Proofs.Data.Outcome
import Branchwise.Proofs.Flow.Enumeration
import Branchwise.Proofs.Flow.Decisions

/-!
# The complexity of a function and its flow graph

The complexity of a function counts its conditional statements, loops, case labels and conditional
expressions.  In the flow graph it is the number of branches beyond one for each decision.  The
count of a statement leaves out the labels that belong to a switch around it.
-/

namespace Branchwise

open List BranchAnalysis

namespace Tree

variable {l : Label} {ts : List Tree}

theorem isShaped_node (h : (node l ts).isShaped) :
    fits l.kind ts ∧ ∀ t ∈ ts, t.isShaped := by
  rw [isShaped, walk_node, all_cons, Bool.and_eq_true] at h
  refine ⟨h.1, fun t ht => all_eq_true.mpr fun n hn => ?_⟩
  exact all_eq_true.mp h.2 n (mem_flatMap.mpr ⟨t, ht, hn⟩)

def decisionCountAll (ts : List Tree) : Nat :=
  ((ts.flatMap walk).filter fun n => n.label.isDecision).length

theorem decisionCount_node :
    (node l ts).decisionCount = decisionCountAll ts + if l.kind.isDecision then 1 else 0 := by
  rw [decisionCount, walk_node, filter_cons]
  show length (if l.kind.isDecision then _ else _) = _
  split <;> rfl

end Tree

namespace Draft

open Branchwise.Tree

mutual

/-- A statement adds as many branches beyond its decisions as it counts, apart from the case labels
that belong to a switch around it. -/
theorem tallyOf_of_isShaped (t : Tree) (id : Nat) (h : t.isShaped) :
    (tallyOf t id).1 + (caseLabels (switchLabels t id)).length
      = (tallyOf t id).2.1 + t.decisionCount := by
  obtain ⟨l, ts⟩ := t
  obtain ⟨hfits, hts⟩ := isShaped_node h
  have hall := tallyUpTo_of_isShaped ts (id + 1) le_rfl hts
  match hk : l.kind with
  | .compound | .label =>
    rw [decisionCount_node, switchLabels_node (by simp [hk])]
    simpa [tallyOf, hk, NodeKind.isDecision] using hall
  | .case | .default =>
    rw [decisionCount_node, caseLabels_switchLabels l ts id (by simp [hk])]
    simp [tallyOf, hk, NodeKind.isDecision]
    omega
  | .ifElse | .whileLoop | .doLoop | .forLoop =>
    rw [hk] at hfits
    have hinner := tallyUpTo_of_isShaped ts (id + 1) (of_decide_eq_true hfits) hts
    rw [decisionCount_node, switchLabels_node (by simp [hk])]
    simp [tallyOf, hk, NodeKind.isDecision]
    omega
  | .switch =>
    have hnone : switchLabels (.node l ts) id = [] := by simp [switchLabels, hk]
    rw [decisionCount_node, hnone]
    simp [tallyOf, hk, NodeKind.isDecision]
    show _ + 0 = _
    omega
  | .break | .continue | .return | .goto | .call | .declaration | .expression | .ternary =>
    rw [hk] at hfits
    obtain ⟨hcount, hnone⟩ := leaf_of_fits id (by rw [hk]; decide) hfits
    rw [hcount, hnone]
    simp only [tallyOf, hk]
    show _ + 0 = _
    omega

theorem tallyUpTo_of_isShaped (ts : List Tree) (id : Nat) {k : Nat} (hk : ts.length ≤ k)
    (h : ∀ t ∈ ts, t.isShaped) :
    (tallyUpTo k ts id).1 + (caseLabels (switchLabelsAll ts id)).length
      = (tallyUpTo k ts id).2.1 + decisionCountAll ts := by
  match ts, k with
  | [], 0 => rfl
  | [], _ + 1 => rfl
  | t :: ts, k + 1 =>
    rw [forall_mem_cons] at h
    have hfirst := tallyOf_of_isShaped t id h.1
    have hrest := tallyUpTo_of_isShaped ts (id + t.size) (Nat.le_of_succ_le_succ hk) h.2
    have hcount : decisionCountAll (t :: ts) = t.decisionCount + decisionCountAll ts := by
      simp only [decisionCountAll, decisionCount, flatMap_cons, filter_append,
        length_append]
    rw [switchLabelsAll, caseLabels_append, length_append, hcount]
    simp only [tallyUpTo, Prod.fst_add, Prod.snd_add]
    omega

end

end Draft

open Draft

section Analysis

variable {f : FunctionDecl} {body : Tree} {limit : Option Nat} {a : BranchAnalysis}

theorem BranchAnalysis.ofFunction_eq_ok (h : ofFunction f body limit = .ok a) :
    ofBody f.name body = .ok (drawn f.name body) ∧
      Complexity.measure f body a.branches.length = .ok a.complexity ∧
      a.graph = (drawn f.name body).graph ∧ a.branches = (drawn f.name body).branches ∧
      a.paths = a.graph.paths a.branches limit := by
  obtain ⟨d, hd, h⟩ := bind_eq_ok h
  obtain ⟨complexity, hcomplexity, h⟩ := bind_eq_ok h
  obtain ⟨directions, -, h⟩ := bind_eq_ok h
  cases h
  obtain rfl := ofBody_eq_ok hd
  exact ⟨hd, hcomplexity, rfl, rfl, rfl⟩

/-- The complexity of a function is the number of its branches beyond one for each decision, and one
more, if its body is shaped as it should be and has no label outside of a switch. -/
theorem cyclomatic_eq_branches_sub_decisions (h : BranchAnalysis.ofFunction f body limit = .ok a)
    (hshape : body.isShaped = true) (hlabels : switchLabels body 0 = []) :
    (a.branches.length : ℤ) - a.graph.decisions.length + 1 = a.complexity.cyclomatic := by
  obtain ⟨-, hmeasure, hgraph, hbranches, -⟩ := ofFunction_eq_ok h
  obtain ⟨lines, -, hmeasure⟩ := bind_eq_ok hmeasure
  have hcyclomatic : body.decisionCount + 1 = a.complexity.cyclomatic :=
    congrArg Complexity.cyclomatic (Except.ok.inj hmeasure)
  have htally := (recorded_drawn f.name body).tally_eq
  have hlength : a.branches.length = 0 + (tallyOf body 0).1 :=
    hbranches ▸ congrArg Prod.fst htally
  have hdecisions : a.graph.decisions.length = 0 + (tallyOf body 0).2.1 :=
    hgraph ▸ congrArg (·.2.1) htally
  have hcount := tallyOf_of_isShaped body 0 hshape
  rw [hlabels, show (caseLabels []).length = 0 from rfl] at hcount
  omega

end Analysis

/-- A loop around a switch, with a case label inside a conditional statement and a conditional
expression inside another. -/
def caseInside : Tree :=
  let bare := fun kind ts =>
    Tree.node ⟨kind, .null, .null, .null, .null, .null, .null, .null, .null⟩ ts
  let choice := bare .ternary [bare .ternary [], bare .call []]
  bare .whileLoop [bare .switch [bare .case [], bare .ifElse [bare .case [bare .goto [choice]]]]]

theorem cyclomatic_eq_branches_sub_decisions_caseInside :
    ∃ a, BranchAnalysis.ofFunction (.named .null) caseInside none = .ok a ∧
      a.complexity.cyclomatic = 7 ∧
      (a.branches.length : ℤ) - a.graph.decisions.length + 1 = a.complexity.cyclomatic := by
  have htest : (ofFunction (.named .null) caseInside none).toOption.any
      (fun a => a.complexity.cyclomatic = 7) := by decide +kernel
  cases h : ofFunction (.named .null) caseInside none with
  | error e =>
    rw [h] at htest
    cases htest
  | ok a =>
    rw [h] at htest
    exact ⟨a, rfl, of_decide_eq_true htest,
      cyclomatic_eq_branches_sub_decisions h (by decide +kernel) (by decide +kernel)⟩

end Branchwise
