import Branchwise.Proofs.Flow.Complexity

/-!
# The representation of flow graphs

Nodes and branches are found by their numbers, and edges by either of their ends.  A decision leads
to the arms of its branches: those of a switch are drawn where its labels are, and yet every branch
has one in the end.
-/

namespace Branchwise

open List FlowGraph

namespace Draft

open Branchwise.Tree

section Shaped

variable {d : Draft} (h : d.Shaped)
include h

/-- A node is found under its own number. -/
theorem Shaped.armAt_of_mem {n : FlowNode} (hn : n ∈ d.graph.nodes) :
    d.graph.armAt n.id = n.branch ∧ d.graph.kindAt n.id = some n.kind := by
  obtain ⟨v, hv⟩ := mem_iff_getElem?.mp hn
  have hnode : d.graph.node? n.id = some n := (h.node_id v n hv).symm ▸ hv
  rw [armAt, kindAt, hnode]
  exact ⟨rfl, rfl⟩

/-- Where no branch has arms beyond one, every branch has one arm, and this is where it is noted. -/
theorem Shaped.exists_arm (hexcess : d.excess = 0) {i : Nat} {b : Branch}
    (hb : d.branches[i]? = some b) :
    ∃ n, d.graph.nodes.filter (fun x => x.branch = some i) = [n] ∧ d.graph.armAt n.id = some i ∧
      b.armNode = some n.id ∧ ∀ v, d.graph.armAt v = some i → v = n.id := by
  have hcount : d.excess i = 0 := congrFun hexcess i
  rw [excess, if_pos (List.getElem?_eq_some_iff.mp hb).1, countP_eq_length_filter] at hcount
  obtain ⟨n, hn⟩ := length_eq_one_iff.mp (Int.ofNat_inj.mp (sub_eq_zero.mp hcount))
  have hid (v : Nat) (hv : d.graph.armAt v = some i) : v = n.id := by
    obtain ⟨m, hm, hbranch⟩ := Option.bind_eq_some_iff.mp hv
    have hmem : m ∈ d.graph.nodes.filter fun x => x.branch = some i :=
      mem_filter.mpr ⟨mem_of_getElem? hm, decide_eq_true hbranch⟩
    rw [hn, mem_singleton] at hmem
    exact hmem ▸ (h.node_id v m hm).symm
  have hmem := mem_filter.mp (hn ▸ mem_singleton_self n)
  have harm : d.graph.armAt n.id = some i :=
    (h.armAt_of_mem hmem.1).1.trans (of_decide_eq_true hmem.2)
  obtain ⟨b', hb', hsome, -⟩ := h.arm_entered n.id i harm
  cases hb.symm.trans hb'
  obtain ⟨v, hv⟩ := Option.ne_none_iff_exists'.mp hsome
  exact ⟨n, hn, harm, hid v (h.armAt_of i b v hb hv) ▸ hv, hid⟩

end Shaped

end Draft

end Branchwise
