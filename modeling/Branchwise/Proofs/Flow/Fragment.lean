import Branchwise.Flow.Graph
import Branchwise.Proofs.Flow.Runs

/-!
# Walks through a flow graph

A walk follows edges up to the exit.  A `Fragment` ties a piece of a graph to a behaviour: the walks
that leave a node are the runs of the behaviour, each followed by a walk from where its completion
leads.  Walks are counted, since a loop is left only after finitely many rounds.
-/

namespace Branchwise

open List

namespace FlowGraph

variable {g : FlowGraph} {u n : Nat} {bs : List Nat}

def marks (g : FlowGraph) (u : Nat) : List Nat := ((g.node? u).bind FlowNode.branch).toList

def IsWalk (g : FlowGraph) (w : List Nat) : Prop :=
  w.head? = some entry ∧ w.getLast? = some exit ∧ w.IsChain fun u v => v ∈ g.successors u

def branchesAlong (g : FlowGraph) (w : List Nat) : List Nat :=
  w.filterMap fun u => (g.node? u).bind FlowNode.branch

/-- A walk of some length from a node to the exit, with the branches it takes. -/
inductive Walks (g : FlowGraph) : Nat → Nat → List Nat → Prop
  | exit : Walks g 0 FlowGraph.exit []
  | step {n u v : Nat} {bs : List Nat} : v ∈ g.successors u → Walks g n v bs →
      Walks g (n + 1) u (g.marks u ++ bs)

def Leaves (g : FlowGraph) (n u : Nat) (bs : List Nat) : Prop :=
  ∃ v ∈ g.successors u, g.Walks n v bs

theorem branchesAlong_cons (g : FlowGraph) (u : Nat) (w : List Nat) :
    g.branchesAlong (u :: w) = g.marks u ++ g.branchesAlong w := by
  unfold branchesAlong marks
  cases h : (g.node? u).bind FlowNode.branch <;> simp [h]

theorem exists_walks_iff (hexit : g.marks exit = []) (u : Nat) (bs : List Nat) :
    (∃ w : List Nat, w.head? = some u ∧ w.getLast? = some exit ∧
        w.IsChain (fun u v => v ∈ g.successors u) ∧ g.branchesAlong w = bs) ↔
      ∃ n, g.Walks n u bs := by
  constructor
  · rintro ⟨w, hhead, hlast, hchain, rfl⟩
    induction w generalizing u with
    | nil => simp at hhead
    | cons x w ih =>
      obtain rfl : x = u := by simpa using hhead
      cases w with
      | nil =>
        obtain rfl : x = FlowGraph.exit := by simpa using hlast
        rw [branchesAlong_cons, hexit]
        exact ⟨0, .exit⟩
      | cons v w =>
        obtain ⟨hv, hrest⟩ := isChain_cons_cons.mp hchain
        obtain ⟨n, hn⟩ := ih v rfl (by simpa using hlast) hrest
        rw [branchesAlong_cons]
        exact ⟨n + 1, .step hv hn⟩
  · rintro ⟨n, h⟩
    induction h with
    | exit => exact ⟨[FlowGraph.exit], rfl, rfl, isChain_singleton _, by
        rw [branchesAlong_cons, hexit]; rfl⟩
    | @step n u v bs hv _ ih =>
      obtain ⟨w, hhead, hlast, hchain, hbs⟩ := ih
      cases w with
      | nil => simp at hhead
      | cons x w =>
        obtain rfl : x = v := by simpa using hhead
        refine ⟨u :: x :: w, rfl, by simpa using hlast, isChain_cons_cons.mpr ⟨hv, hchain⟩, ?_⟩
        rw [branchesAlong_cons, hbs]

theorem Walks.leaves (h : g.Walks n u bs) (hu : u ≠ FlowGraph.exit) :
    ∃ m bs', m < n ∧ g.Leaves m u bs' ∧ bs = g.marks u ++ bs' := by
  cases h with
  | exit => exact absurd rfl hu
  | @step m _ v bs' hv hw => exact ⟨m, bs', Nat.lt_succ_self m, ⟨v, hv, hw⟩, rfl⟩

theorem Leaves.walks (h : g.Leaves n u bs) : g.Walks (n + 1) u (g.marks u ++ bs) := by
  obtain ⟨v, hv, hw⟩ := h
  exact .step hv hw

theorem Walks.leaves_unmarked (h : g.Walks n u bs) (hmark : g.marks u = [])
    (hu : u ≠ FlowGraph.exit) : ∃ m < n, g.Leaves m u bs := by
  obtain ⟨m, bs', hm, hleaves, rfl⟩ := h.leaves hu
  rw [hmark]
  exact ⟨m, hm, hleaves⟩

theorem Leaves.walks_unmarked (h : g.Leaves n u bs) (hmark : g.marks u = []) :
    g.Walks (n + 1) u bs := by
  have hw := h.walks
  rwa [hmark, nil_append] at hw

theorem leaves_iff_of_single {v : Nat} (h : ∀ x, x ∈ g.successors u ↔ x = v) (n : Nat)
    (bs : List Nat) : g.Leaves n u bs ↔ g.Walks n v bs := by
  constructor
  · rintro ⟨x, hx, hw⟩
    rw [(h x).mp hx] at hw
    exact hw
  · intro hw
    exact ⟨v, (h v).mpr rfl, hw⟩

end FlowGraph

/-! ## Fragments -/

/-- What follows a completion: a walk of some length with its branches. -/
abbrev Continuation := Nat → Completion → List Nat → Prop

/-- The walks that leave a node are the runs of a behaviour, each followed by what its completion
leads to. -/
structure Fragment (g : FlowGraph) (u : Nat) (p : Behaviour) (k : Continuation) : Prop where
  sound : ∀ n bs, g.Leaves n u bs →
    ∃ m ≤ n, ∃ bs₁ e bs₂, p bs₁ e ∧ k m e bs₂ ∧ bs = bs₁ ++ bs₂
  complete : ∀ m bs₁ e bs₂, p bs₁ e → k m e bs₂ → ∃ n, g.Leaves n u (bs₁ ++ bs₂)

namespace Fragment

open FlowGraph Behaviour

variable {g : FlowGraph} {u v : Nat} {p q : Behaviour} {k k' : Continuation}

theorem imp (h : Fragment g u p k)
    (hto : ∀ bs e, p bs e → ∀ m bs', k m e bs' → ∃ m' ≤ m, k' m' e bs')
    (hfrom : ∀ bs e, p bs e → ∀ m bs', k' m e bs' → ∃ m', k m' e bs') : Fragment g u p k' where
  sound := by
    intro n bs hn
    obtain ⟨m, hm, bs₁, e, bs₂, hp, hk, hbs⟩ := h.sound n bs hn
    obtain ⟨m', hm', hk'⟩ := hto bs₁ e hp m bs₂ hk
    exact ⟨m', hm'.trans hm, bs₁, e, bs₂, hp, hk', hbs⟩
  complete := by
    intro m bs₁ e bs₂ hp hk
    obtain ⟨m', hk'⟩ := hfrom bs₁ e hp m bs₂ hk
    exact h.complete m' bs₁ e bs₂ hp hk'

theorem skip (h : ∀ m bs, k m .normal bs ↔ g.Leaves m u bs) : Fragment g u (ends .normal) k where
  sound := fun n bs hn => ⟨n, Nat.le_refl n, [], .normal, bs, ⟨rfl, rfl⟩, (h n bs).mpr hn, rfl⟩
  complete := by
    rintro m bs₁ e bs₂ ⟨rfl, rfl⟩ hk
    exact ⟨m, (h m bs₂).mp hk⟩

theorem jump {c : Completion} (hs : ∀ x, x ∈ g.successors u ↔ x = v)
    (hk : ∀ m bs, k m c bs ↔ g.Walks m v bs) : Fragment g u (ends c) k where
  sound := by
    intro n bs hn
    rw [leaves_iff_of_single hs] at hn
    exact ⟨n, Nat.le_refl n, [], c, bs, ⟨rfl, rfl⟩, (hk n bs).mpr hn, rfl⟩
  complete := by
    rintro m bs₁ e bs₂ ⟨rfl, rfl⟩ h
    exact ⟨m, (leaves_iff_of_single hs m bs₂).mpr ((hk m bs₂).mp h)⟩

theorem enter (h : Fragment g v p k) (hs : ∀ x, x ∈ g.successors u ↔ x = v)
    (hmark : g.marks v = []) (hv : v ≠ exit) : Fragment g u p k where
  sound := by
    intro n bs hn
    obtain ⟨m, bs', hm, hleaves, hbs⟩ := ((leaves_iff_of_single hs n bs).mp hn).leaves hv
    rw [hmark] at hbs
    obtain ⟨m', hm', rest⟩ := h.sound m bs' hleaves
    rw [hbs]
    exact ⟨m', by omega, rest⟩
  complete := by
    intro m bs₁ e bs₂ hp hk
    obtain ⟨n, hn⟩ := h.complete m bs₁ e bs₂ hp hk
    refine ⟨n + 1, (leaves_iff_of_single hs _ _).mpr ?_⟩
    have hw := hn.walks
    rwa [hmark, nil_append] at hw

theorem andThen (h : Fragment g u p k) (hsame : ∀ m e bs, e ≠ .normal → (k m e bs ↔ k' m e bs))
    (hnext : ∀ bs, p bs .normal →
      ∃ w, (∀ m bs, k m .normal bs ↔ g.Leaves m w bs) ∧ Fragment g w q k') :
    Fragment g u (p.andThen q) k' where
  sound := by
    intro n bs hn
    obtain ⟨m, hm, bs₁, e, bs₂, hp, hk, rfl⟩ := h.sound n bs hn
    by_cases he : e = .normal
    · subst he
      obtain ⟨w, hw, hq⟩ := hnext bs₁ hp
      obtain ⟨m', hm', bs3, e, bs4, hq', hk', rfl⟩ := hq.sound m bs₂ ((hw m bs₂).mp hk)
      refine ⟨m', hm'.trans hm, bs₁ ++ bs3, e, bs4, .inr ⟨bs₁, bs3, hp, hq', rfl⟩, hk', ?_⟩
      rw [append_assoc]
    · exact ⟨m, hm, bs₁, e, bs₂, .inl ⟨hp, he⟩, (hsame m e bs₂ he).mp hk, rfl⟩
  complete := by
    rintro m bs₁ e bs₂ (⟨hp, he⟩ | ⟨bs3, bs4, hp, hq, rfl⟩) hk
    · exact h.complete m bs₁ e bs₂ hp ((hsame m e bs₂ he).mpr hk)
    · obtain ⟨w, hw, hfrag⟩ := hnext bs3 hp
      obtain ⟨n, hn⟩ := hfrag.complete m bs4 e bs₂ hq hk
      rw [append_assoc]
      exact h.complete n bs3 .normal (bs4 ++ bs₂) hp ((hw n _).mpr hn)

theorem decides {b t f : Nat} (ht : Fragment g t p k) (hf : Fragment g f q k)
    (hs : ∀ x, x ∈ g.successors u ↔ x = t ∨ x = f) (htm : g.marks t = [b])
    (hfm : g.marks f = [b + 1]) (hte : t ≠ exit) (hfe : f ≠ exit) :
    Fragment g u (decides b p q) k where
  sound := by
    rintro n bs ⟨x, hx, hw⟩
    rcases (hs x).mp hx with rfl | rfl
    · obtain ⟨m, bs', hm, hleaves, rfl⟩ := hw.leaves hte
      obtain ⟨m', hm', bs₁, e, bs₂, hp, hk, rfl⟩ := ht.sound m bs' hleaves
      exact ⟨m', by omega, b :: bs₁, e, bs₂, .inl ⟨bs₁, hp, rfl⟩, hk, by rw [htm]; rfl⟩
    · obtain ⟨m, bs', hm, hleaves, rfl⟩ := hw.leaves hfe
      obtain ⟨m', hm', bs₁, e, bs₂, hp, hk, rfl⟩ := hf.sound m bs' hleaves
      exact ⟨m', by omega, (b + 1) :: bs₁, e, bs₂, .inr ⟨bs₁, hp, rfl⟩, hk, by rw [hfm]; rfl⟩
  complete := by
    rintro m bs₁ e bs₂ (⟨bs, hp, rfl⟩ | ⟨bs, hq, rfl⟩) hk
    · obtain ⟨n, hn⟩ := ht.complete m bs e bs₂ hp hk
      have hw := hn.walks
      rw [htm] at hw
      exact ⟨n + 1, t, (hs t).mpr (.inl rfl), hw⟩
    · obtain ⟨n, hn⟩ := hf.complete m bs e bs₂ hq hk
      have hw := hn.walks
      rw [hfm] at hw
      exact ⟨n + 1, f, (hs f).mpr (.inr rfl), hw⟩

/-- The runs of a body are the rounds of a loop with its test at a node: they lead back to the test
or out of the loop. -/
structure Rounds (g : FlowGraph) (h : Nat) (body : Behaviour) (kbody k : Continuation) : Prop where
  back : ∀ bs e, body bs e → e = .normal ∨ e = .continue →
    ∀ m bs', kbody m e bs' → ∃ i < m, g.Leaves i h bs'
  again : ∀ bs e, body bs e → e = .normal ∨ e = .continue →
    ∀ m bs', g.Leaves m h bs' → ∃ m', kbody m' e bs'
  leaves : ∀ m bs, kbody m .break bs → ∃ m' ≤ m, k m' .normal bs
  broken : ∀ m bs, k m .normal bs → ∃ m', kbody m' .break bs
  return_iff : ∀ m bs, kbody m .return bs ↔ k m .return bs

variable {b t f h n m : Nat} {body : Behaviour} {kbody : Continuation} {bs₁ bs₂ : List Nat}
  {e : Completion}

theorem Rounds.sound (hr : Rounds g h body kbody k) (hbody : Fragment g u body kbody)
    (hloop : ∀ i < n, ∀ bs, g.Leaves i h bs →
      ∃ m ≤ i, ∃ bs₁ e bs₂, whileLoop b body bs₁ e ∧ k m e bs₂ ∧ bs = bs₁ ++ bs₂)
    (hn : g.Leaves n u bs₁) :
    ∃ m ≤ n, ∃ bs e bs₂, doLoop b body bs e ∧ k m e bs₂ ∧ bs₁ = bs ++ bs₂ := by
  obtain ⟨m, hm, bs₁, e, bs₂, hp, hk, rfl⟩ := hbody.sound n _ hn
  have hround : e = .normal ∨ e = .continue →
      ∃ m ≤ n, ∃ bs3 e bs4, doLoop b body bs3 e ∧ k m e bs4 ∧ bs₁ ++ bs₂ = bs3 ++ bs4 := by
    intro he
    obtain ⟨i, hi, hnext⟩ := hr.back bs₁ e hp he m bs₂ hk
    obtain ⟨j, hj, bs3, e', bs4, hrest, hk', rfl⟩ := hloop i (by omega) bs₂ hnext
    exact ⟨j, by omega, bs₁ ++ bs3, e', bs4, .inl ⟨bs₁, bs3, e, hp, he, hrest, rfl⟩, hk',
      (append_assoc _ _ _).symm⟩
  cases e with
  | normal => exact hround (.inl rfl)
  | «continue» => exact hround (.inr rfl)
  | «break» =>
    obtain ⟨j, hj, hk'⟩ := hr.leaves m bs₂ hk
    exact ⟨j, by omega, bs₁, .normal, bs₂, .inr (.inl ⟨hp, rfl⟩), hk', rfl⟩
  | «return» =>
    exact ⟨m, hm, bs₁, .return, bs₂, .inr (.inr ⟨hp, rfl⟩), (hr.return_iff m bs₂).mp hk, rfl⟩

theorem Rounds.complete (hr : Rounds g h body kbody k) (hbody : Fragment g u body kbody)
    (hrun : doLoop b body bs₁ e) (hk : k m e bs₂)
    (hloop : ∀ bs, bs.length ≤ bs₁.length → whileLoop b body bs e →
      ∃ n, g.Leaves n h (bs ++ bs₂)) : ∃ n, g.Leaves n u (bs₁ ++ bs₂) := by
  rcases hrun with ⟨bs, bs', c, hp, hc, hrest, rfl⟩ | ⟨hp, rfl⟩ | ⟨hp, rfl⟩
  · obtain ⟨n, hn⟩ := hloop bs' (by simp) hrest
    obtain ⟨m', hk'⟩ := hr.again bs c hp hc n (bs' ++ bs₂) hn
    rw [append_assoc]
    exact hbody.complete m' bs c (bs' ++ bs₂) hp hk'
  · obtain ⟨m', hk'⟩ := hr.broken m bs₂ hk
    exact hbody.complete m' bs₁ .break bs₂ hp hk'
  · exact hbody.complete m bs₁ .return bs₂ hp ((hr.return_iff m bs₂).mpr hk)

theorem whileLoop (hr : Rounds g u body kbody k) (hbody : Fragment g t body kbody)
    (hstop : Fragment g f (ends .normal) k) (hs : ∀ x, x ∈ g.successors u ↔ x = t ∨ x = f)
    (htm : g.marks t = [b]) (hfm : g.marks f = [b + 1]) (hte : t ≠ exit) (hfe : f ≠ exit) :
    Fragment g u (whileLoop b body) k where
  sound := by
    intro n
    -- Each round uses up some of the walk.
    induction n using Nat.strong_induction_on with
    | _ n ih =>
      rw [whileLoop_eq]
      rintro bs ⟨x, hx, hw⟩
      rcases (hs x).mp hx with rfl | rfl
      · obtain ⟨m, bs', hm, hleaves, rfl⟩ := hw.leaves hte
        obtain ⟨m', hm', bs₁, e, bs₂, hrun, hk, rfl⟩ :=
          hr.sound hbody (fun i hi => ih i (hi.trans hm)) hleaves
        exact ⟨m', by omega, b :: bs₁, e, bs₂, .inl ⟨bs₁, hrun, rfl⟩, hk, by rw [htm]; rfl⟩
      · obtain ⟨m, bs', hm, hleaves, rfl⟩ := hw.leaves hfe
        obtain ⟨m', hm', bs₁, e, bs₂, hrun, hk, rfl⟩ := hstop.sound m bs' hleaves
        exact ⟨m', by omega, (b + 1) :: bs₁, e, bs₂, .inr ⟨bs₁, hrun, rfl⟩, hk, by rw [hfm]; rfl⟩
  complete := by
    intro m bs₁ e bs₂ hloop hk
    -- Each round takes a branch.
    induction hlen : bs₁.length using Nat.strong_induction_on generalizing bs₁ with
    | _ n ih =>
      rw [whileLoop_eq] at hloop
      rcases hloop with ⟨bs, hrun, rfl⟩ | ⟨bs, hrun, rfl⟩
      · obtain ⟨n, hn⟩ := hr.complete hbody hrun hk fun bs' hle hl =>
          ih bs'.length (by rw [← hlen]; exact Nat.lt_succ_of_le hle) bs' hl rfl
        have hw := hn.walks
        rw [htm] at hw
        exact ⟨n + 1, t, (hs t).mpr (.inl rfl), hw⟩
      · obtain ⟨n, hn⟩ := hstop.complete m bs e bs₂ hrun hk
        have hw := hn.walks
        rw [hfm] at hw
        exact ⟨n + 1, f, (hs f).mpr (.inr rfl), hw⟩

theorem doLoop (hr : Rounds g h body kbody k) (hbody : Fragment g u body kbody)
    (hloop : Fragment g h (Behaviour.whileLoop b body) k) : Fragment g u (doLoop b body) k where
  sound := fun _ _ hn => hr.sound hbody (fun i _ => hloop.sound i) hn
  complete := fun m _ e bs₂ hrun hk => hr.complete hbody hrun hk fun bs _ hl =>
    hloop.complete m bs e bs₂ hl hk

theorem inSwitch (h : Fragment g u p k) (hbreak : ∀ m bs, k m .break bs ↔ k' m .normal bs)
    (hsame : ∀ m e bs, e ≠ .break → (k m e bs ↔ k' m e bs)) :
    Fragment g u (Behaviour.inSwitch p) k' where
  sound := by
    intro n bs hn
    obtain ⟨m, hm, bs₁, e, bs₂, hp, hk, hbs⟩ := h.sound n bs hn
    by_cases he : e = .break
    · subst he
      exact ⟨m, hm, bs₁, .normal, bs₂, .inl ⟨hp, rfl⟩, (hbreak m bs₂).mp hk, hbs⟩
    · exact ⟨m, hm, bs₁, e, bs₂, .inr ⟨hp, he⟩, (hsame m e bs₂ he).mp hk, hbs⟩
  complete := by
    rintro m bs₁ e bs₂ (⟨hp, rfl⟩ | ⟨hp, he⟩) hk
    · exact h.complete m bs₁ .break bs₂ hp ((hbreak m bs₂).mpr hk)
    · exact h.complete m bs₁ e bs₂ hp ((hsame m e bs₂ he).mpr hk)

end Fragment

/-- A node starts a branch and then does part of what is done in it. -/
structure Arm (g : FlowGraph) (p : Nat → Behaviour) (k : Continuation) (v b : Nat)
    (q : Behaviour) : Prop where
  marks_eq : g.marks v = [b]
  fragment : Fragment g v q k
  le : ∀ bs e, q bs e → p b bs e

theorem Fragment.choose {g : FlowGraph} {u : Nat} {p : Nat → Behaviour} {k : Continuation}
    (hexit : g.marks FlowGraph.exit = [])
    (hto : ∀ v ∈ g.successors u, ∃ b q, Arm g p k v b q)
    (hfrom : ∀ b bs e, p b bs e → ∃ v ∈ g.successors u, ∃ q, Arm g p k v b q ∧ q bs e) :
    Fragment g u (fun bs e => ∃ b bs', bs = b :: bs' ∧ p b bs' e) k where
  sound := by
    rintro n bs ⟨v, hv, hw⟩
    obtain ⟨b, q, harm⟩ := hto v hv
    have hne : v ≠ FlowGraph.exit := by
      rintro rfl
      rw [harm.marks_eq] at hexit
      cases hexit
    obtain ⟨m, bs', hm, hleaves, rfl⟩ := hw.leaves hne
    obtain ⟨m', hm', bs₁, e, bs₂, hq, hk, rfl⟩ := harm.fragment.sound m bs' hleaves
    refine ⟨m', by omega, b :: bs₁, e, bs₂, ⟨b, bs₁, rfl, harm.le bs₁ e hq⟩, hk, ?_⟩
    rw [harm.marks_eq]
    rfl
  complete := by
    rintro m bs₁ e bs₂ ⟨b, bs', rfl, hp⟩ hk
    obtain ⟨v, hv, q, harm, hq⟩ := hfrom b bs' e hp
    obtain ⟨n, hn⟩ := harm.fragment.complete m bs' e bs₂ hq hk
    have hw := hn.walks
    rw [harm.marks_eq] at hw
    exact ⟨n + 1, v, hv, hw⟩

theorem Arm.imp {g : FlowGraph} {p p' : Nat → Behaviour} {k k' : Continuation} {v b : Nat}
    {q : Behaviour} (h : Arm g p k v b q) (hle : ∀ bs e, p b bs e → p' b bs e)
    (hto : ∀ bs e, p b bs e → ∀ m bs', k m e bs' → ∃ m' ≤ m, k' m' e bs')
    (hfrom : ∀ bs e, p b bs e → ∀ m bs', k' m e bs' → ∃ m', k m' e bs') :
    Arm g p' k' v b q where
  marks_eq := h.marks_eq
  fragment := h.fragment.imp (fun bs e hq => hto bs e (h.le bs e hq))
    fun bs e hq => hfrom bs e (h.le bs e hq)
  le := fun bs e hq => hle bs e (h.le bs e hq)

end Branchwise
