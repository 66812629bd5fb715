import Branchwise.Proofs.Guard.Lexemes

/-!
# The parser recognises the grammar

A text is read as an expression exactly if it writes it.  That every text of the grammar is read is
an induction over how it is written, and nine steps for each character are enough.  That only texts
of the grammar are read is an induction over the steps of the parser.
-/

namespace Branchwise.Guard

open List

open Text (isBlank isWhiteSpace isWord)

variable {s rest b1 b2 : List Char} {e : Expr} {r : Reading} {k fuel : Nat} {stall stall' : Nat}
  {op : BinaryOp} {t : List Char} {text : String}

/-! ## Texts of the grammar are read -/

/-- Whatever may follow a level, a parser with enough steps reads a text and stops behind it.  The
deeper it stands in the descent, the more steps have already been taken. -/
def Reads (parser : Nat → Nat → List Char → Outcome) (depth k : Nat) (s : List Char)
    (r : Reading) : Prop :=
  ∀ fuel stall rest, 9 * s.length ≤ fuel + depth → MayFollow k rest →
    ∃ stall', parser fuel stall (s ++ rest) = (stall', some (r, rest))

/-- A text is read as the operands so far of a chain of a level, which may go on behind it. -/
def ReadsChain (k : Nat) (s : List Char) (r : Reading) : Prop :=
  ∀ fuel stall rest, 9 * s.length ≤ fuel + k → MayFollow (k + 1) rest →
    ∃ fuel' stall', fuel ≤ fuel' + 9 * s.length ∧
      parseLevel fuel k stall (s ++ rest) = parseChain fuel' k r stall' rest

theorem OpensWith.length_pos {p : Char → Bool} (h : OpensWith p s) : 0 < s.length := by
  obtain ⟨c, r, rfl, -⟩ := h
  exact Nat.succ_pos _

theorem ReadsChain.reads (h : ReadsChain k s r) :
    Reads (fun fuel => parseLevel fuel k) k k s r := by
  intro fuel stall rest hfuel hrest
  obtain ⟨fuel', stall', -, heq⟩ := h fuel stall rest hfuel (hrest.mono (Nat.le_succ k))
  dsimp only
  rw [heq]
  cases fuel' with
  | zero => exact ⟨stall', by rw [parseChain]⟩
  | succ fuel' =>
    rw [parseChain]
    split
    · exact ⟨stall', rfl⟩
    · simp only [hrest.operator?_eq_none (Nat.le_refl k)]
      exact ⟨_, rfl⟩

theorem ReadsChain.of_tighter (hk : k < levels) (hs : 0 < s.length)
    (h : Reads (fun fuel => parseLevel fuel (k + 1)) (k + 1) (k + 1) s r) : ReadsChain k s r := by
  intro fuel stall rest hfuel hrest
  cases fuel with
  | zero => unfold levels at hk; omega
  | succ fuel =>
    obtain ⟨stall', heq⟩ := h fuel stall rest (by omega) hrest
    refine ⟨fuel, stall', by omega, ?_⟩
    dsimp only at heq
    rw [parseLevel, if_pos hk, heq]

theorem Reads.of_signed (hs : 0 < s.length) (h : Reads parseUnary 7 6 s r) :
    Reads (fun fuel => parseLevel fuel 6) 6 6 s r := by
  intro fuel stall rest hfuel hrest
  cases fuel with
  | zero => omega
  | succ fuel =>
    obtain ⟨stall', heq⟩ := h fuel stall rest (by omega) hrest
    refine ⟨stall', ?_⟩
    dsimp only
    rw [parseLevel, if_neg (by decide), heq]

theorem sign?_eq_none (h : OpensWith opensOperand s) : sign? s = none := by
  obtain ⟨c, r, rfl, hc⟩ := h
  unfold sign?
  split
  · rename_i heq
    obtain ⟨rfl, -⟩ := cons.inj heq
    exact absurd hc (by decide)
  · rename_i heq
    obtain ⟨rfl, -⟩ := cons.inj heq
    exact absurd hc (by decide)
  · rename_i heq
    obtain ⟨rfl, -⟩ := cons.inj heq
    exact absurd hc (by decide)
  · rfl

theorem Reads.of_operand (hs : OpensWith opensOperand s) (h : Reads parseOperand 8 6 s r) :
    Reads parseUnary 7 6 s r := by
  intro fuel stall rest hfuel hrest
  have hpos := hs.length_pos
  cases fuel with
  | zero => omega
  | succ fuel =>
    rw [parseUnary, sign?_eq_none (hs.append rest)]
    exact h fuel _ rest (by omega) hrest

theorem Reads.sign (c : Char) (sign : Sign) {b : List Char} (hb : Blanks b)
    (hs : OpensWith opensExpr s) (hsign : ∀ t, sign? (c :: t) = some (sign, t))
    (h : Reads parseUnary 7 6 s r) : Reads parseUnary 7 6 (c :: (b ++ s)) (r.map sign.apply) := by
  intro fuel stall rest hfuel hrest
  rw [length_cons, length_append] at hfuel
  cases fuel with
  | zero => omega
  | succ fuel =>
    obtain ⟨stall', heq⟩ := h fuel stall rest (by omega) hrest
    refine ⟨stall', ?_⟩
    rw [cons_append, append_assoc, parseUnary, hsign]
    dsimp only
    rw [skipBlanks_append hb, (hs.append rest).skipBlanks, heq]

theorem Reads.of_atom (hs : OpensWith opensAtom s)
    (h : ∀ rest, MayFollow 6 rest → atom? (s ++ rest) = some (r, rest)) :
    Reads parseOperand 8 6 s r := by
  intro fuel stall rest hfuel hrest
  have hpos := hs.length_pos
  cases fuel with
  | zero => omega
  | succ fuel =>
    refine ⟨stall, ?_⟩
    rw [parseOperand.eq_def]
    dsimp only
    split
    · rename_i heq
      obtain ⟨c, t, hct, hc⟩ := hs.append rest
      obtain ⟨rfl, -⟩ := cons.inj (hct.symm.trans heq)
      exact absurd hc (by decide)
    · rw [h rest hrest]

theorem Reads.paren (h1 : Blanks b1) (h2 : Blanks b2) (hs : OpensWith opensExpr s)
    (h : Reads (fun fuel => parseLevel fuel 0) 0 0 s r) :
    Reads parseOperand 8 6 ('(' :: (b1 ++ (s ++ (b2 ++ [')'])))) r := by
  intro fuel stall rest hfuel hrest
  simp only [length_cons, length_append] at hfuel
  cases fuel with
  | zero => omega
  | succ fuel =>
    have hclose : MayFollow 0 (b2 ++ ')' :: rest) := ⟨b2, _, rfl, h2, .paren rest⟩
    obtain ⟨stall', heq⟩ := h fuel stall _ (by omega) hclose
    refine ⟨stall', ?_⟩
    have htext : '(' :: (b1 ++ (s ++ (b2 ++ [')']))) ++ rest =
        '(' :: (b1 ++ (s ++ (b2 ++ ')' :: rest))) := by simp
    have hskip : skipBlanks (b1 ++ (s ++ (b2 ++ ')' :: rest))) = s ++ (b2 ++ ')' :: rest) := by
      rw [skipBlanks_append h1, (hs.append _).skipBlanks]
    have hparen : skipBlanks (b2 ++ ')' :: rest) = ')' :: rest := skipBlanks_append h2 _
    dsimp only at heq
    rw [htext, parseOperand, hskip, heq]
    simp only [hparen]

theorem ReadsChain.binary {l : Reading} (h1 : Blanks b1)
    (h2 : Blanks b2) (ht : OpensWith opensExpr t) (hl : ReadsChain op.level s l)
    (hr : Reads (fun fuel => parseLevel fuel (op.level + 1)) (op.level + 1) (op.level + 1) t r) :
    ReadsChain op.level (s ++ (b1 ++ (op.symbol.toList ++ (b2 ++ t)))) (joined op l r) := by
  intro fuel stall rest hfuel hrest
  have hlevel := level_lt_levels op
  have hsymbol : 0 < op.symbol.toList.length := by cases op <;> decide
  simp only [length_append, levels] at hfuel hlevel
  -- What stands behind the operator opens an operand or is a blank, so the operator is complete.
  have hnext : ∃ c u, b2 ++ (t ++ rest) = c :: u ∧ c ≠ '=' ∧ c ≠ '>' := by
    cases b2 with
    | nil =>
      obtain ⟨c, u, htu, hc⟩ := ht.append rest
      refine ⟨c, u, htu, ?_, ?_⟩ <;> rintro rfl <;> exact absurd hc (by decide)
    | cons c b2 =>
      have hc := h2 c mem_cons_self
      refine ⟨c, _, rfl, ?_, ?_⟩ <;> rintro rfl <;> exact absurd hc (by decide)
  obtain ⟨c, u, hcu, heq, hgt⟩ := hnext
  have hcloses : Closes (op.level + 1) (op.symbol.toList ++ (b2 ++ (t ++ rest))) :=
    hcu ▸ .operator (Nat.lt_succ_self _) heq hgt u
  obtain ⟨fuel', stall', hle, hchain⟩ := hl fuel stall _ (by omega) ⟨b1, _, rfl, h1, hcloses⟩
  cases fuel' with
  | zero => omega
  | succ fuel' =>
    obtain ⟨stall'', hoperand⟩ := hr fuel' stall' rest (by omega) hrest
    refine ⟨fuel', stall'', by simp only [length_append]; omega, ?_⟩
    have hfound : operator? op.level
        (skipBlanks (b1 ++ (op.symbol.toList ++ (b2 ++ (t ++ rest))))) =
          some (op, b2 ++ (t ++ rest)) := by
      rw [skipBlanks_append h1, hcloses.skipBlanks, hcu, operator?_symbol _ _ heq, if_pos rfl]
    have hskip : skipBlanks (b2 ++ (t ++ rest)) = t ++ rest := by
      rw [skipBlanks_append h2, (ht.append rest).skipBlanks]
    have hnonempty : ¬ (b1 ++ (op.symbol.toList ++ (b2 ++ (t ++ rest)))).isEmpty := by
      intro hempty
      have hlength := congrArg length (isEmpty_iff.1 hempty)
      simp only [length_append, length_nil] at hlength
      omega
    dsimp only at hoperand
    calc parseLevel fuel op.level stall (s ++ (b1 ++ (op.symbol.toList ++ (b2 ++ t))) ++ rest)
        = parseLevel fuel op.level stall
            (s ++ (b1 ++ (op.symbol.toList ++ (b2 ++ (t ++ rest))))) := by
          simp only [append_assoc]
      _ = parseChain (fuel' + 1) op.level l stall'
            (b1 ++ (op.symbol.toList ++ (b2 ++ (t ++ rest)))) := hchain
      _ = parseChain fuel' op.level (joined op l r) stall'' rest := by
          rw [parseChain, if_neg hnonempty]
          simp only [hfound, hskip, hoperand]

structure Parses (k : Nat) (s : List Char) (r : Reading) : Prop where
  chain : k < levels → ReadsChain k s r
  signed : k = 6 → Reads parseUnary 7 6 s r
  operand : k = 7 → Reads parseOperand 8 6 s r

theorem Parses.of_operand (h : Reads parseOperand 8 6 s r) : Parses 7 s r :=
  ⟨fun hk => absurd hk (by decide), fun hk => absurd hk (by decide), fun _ => h⟩

theorem Parses.of_signed (h : Reads parseUnary 7 6 s r) : Parses 6 s r :=
  ⟨fun hk => absurd hk (by decide), fun _ => h, fun hk => absurd hk (by decide)⟩

theorem Parses.of_chain (hk : k < levels) (h : ReadsChain k s r) : Parses k s r := by
  unfold levels at hk
  exact ⟨fun _ => h, fun _ => by omega, fun _ => by omega⟩

theorem Parses.level (h : Parses k s r) (hs : 0 < s.length) (hk : k ≤ levels) :
    Reads (fun fuel => parseLevel fuel k) k k s r := by
  rcases Nat.lt_or_eq_of_le hk with hlt | rfl
  · exact (h.chain hlt).reads
  · exact (h.signed rfl).of_signed hs

theorem Parses.looser (hs : OpensWith opensExpr s) (hoperand : k + 1 = 7 → OpensWith opensOperand s)
    (hk : k + 1 ≤ 7) (h : Parses (k + 1) s r) : Parses k s r := by
  by_cases hsix : k = 6
  · obtain rfl := hsix
    exact .of_signed ((h.operand rfl).of_operand (hoperand rfl))
  · have hlt : k < levels := by unfold levels; omega
    exact .of_chain hlt (.of_tighter hlt hs.length_pos (h.level hs.length_pos hlt))

theorem apply_minus_of_negated?_eq_none (h : e.negated? = none) :
    Sign.minus.apply e = .unary .neg e := by
  cases e with
  | int _ | real _ => exact absurd h nofun
  | name _ | bool _ | unary _ _ | binary _ _ _ => rfl

theorem apply_minus_of_negated?_eq_some {e' : Expr} (h : e.negated? = some e') :
    Sign.minus.apply e = e' := by
  cases e with
  | int _ | real _ => exact Option.some.inj h
  | name _ | bool _ | unary _ _ | binary _ _ _ => exact absurd h nofun

/-- What the texts of a style read as: either as the expression that they write or, because of a
literal, as a fault. -/
structure Style.ReadsAs (v : Style) (read : Expr → Reading) : Prop where
  opens : ∀ s e, v.literal s e → OpensWith opensAtom s
  literal : ∀ {s rest : List Char} {e : Expr}, v.literal s e → MayFollow 6 rest →
    atom? (s ++ rest) = some (read e, rest)
  ok_or_error : ∀ e, read e = .ok e ∨ ∃ fault, read e = .error fault
  name : ∀ x, read (.name x) = .ok (.name x)
  unary : ∀ op e, read (.unary op e) = (read e).map (.unary op)
  negated : ∀ {e e' : Expr}, e.negated? = some e' → read e' = (read e).map fun _ => e'
  binary : ∀ op l r, read (.binary op l r) = joined op (read l) (read r)

namespace Style.ReadsAs

variable {v : Style} {read : Expr → Reading}

theorem map_minus_of_none (hv : v.ReadsAs read) (h : e.negated? = none) :
    (read e).map Sign.minus.apply = read (.unary .neg e) := by
  rw [hv.unary]
  rcases hv.ok_or_error e with hok | ⟨fault, herror⟩
  · rw [hok, Except.map, Except.map, apply_minus_of_negated?_eq_none h]
  · rw [herror]
    rfl

theorem map_minus_of_some (hv : v.ReadsAs read) {e' : Expr} (h : e.negated? = some e') :
    (read e).map Sign.minus.apply = read e' := by
  rw [hv.negated h]
  rcases hv.ok_or_error e with hok | ⟨fault, herror⟩
  · rw [hok, Except.map, Except.map, apply_minus_of_negated?_eq_some h]
  · rw [herror]
    rfl

end Style.ReadsAs

theorem Written.parses {v : Style} {read : Expr → Reading} (hv : v.ReadsAs read)
    (h : Written v k s e) : Parses k s (read e) := by
  induction h with
  | literal h => exact .of_operand (.of_atom (hv.opens _ _ h) fun _ hrest => hv.literal h hrest)
  | name h =>
    rw [hv.name]
    refine .of_operand (.of_atom ?_ fun _ hrest => h.atom?_append hrest)
    exact h.opens.imp fun _ => opensAtom_of_isNameStart
  | paren h1 h2 h ih =>
    have hs := h.opens hv.opens
    exact .of_operand (.paren h1 h2 hs (ih.level hs.length_pos (Nat.zero_le _)))
  | not hb h ih =>
    rw [hv.unary]
    exact .of_signed (.sign '!' .not hb (h.opens hv.opens) (fun _ => rfl) (ih.signed rfl))
  | neg hb h hnumber ih =>
    rw [← hv.map_minus_of_none hnumber]
    exact .of_signed (.sign '-' .minus hb (h.opens hv.opens) (fun _ => rfl) (ih.signed rfl))
  | fold hb h _ hnumber ih =>
    rw [← hv.map_minus_of_some hnumber]
    exact .of_signed (.sign '-' .minus hb (h.opens hv.opens) (fun _ => rfl) (ih.signed rfl))
  | @plus _ _ e hb h _ ih =>
    have hread := Reads.sign '+' .plus hb (h.opens hv.opens) (fun _ => rfl) (ih.signed rfl)
    have hplus : (read e).map Sign.plus.apply = read e := by cases read e <;> rfl
    rw [hplus] at hread
    exact .of_signed hread
  | @binary op _ _ _ _ _ _ h1 h2 hl hr ihl ihr =>
    have hlevel := level_lt_levels op
    have ht := hr.opens hv.opens
    rw [hv.binary]
    exact .of_chain hlevel (.binary h1 h2 ht (ihl.chain hlevel) (ihr.level ht.length_pos hlevel))
  | looser h ih =>
    exact .looser (h.opens hv.opens) (fun hk => (hk ▸ h).opens_operand hv.opens) h.level_le ih

theorem Style.full_readsAs : Style.full.ReadsAs .ok where
  opens _ _ := Literal.opens
  literal := Literal.atom?_append
  ok_or_error _ := .inl rfl
  name _ := rfl
  unary _ _ := rfl
  negated _ := rfl
  binary _ _ _ := rfl

/-! ## Only texts of the grammar are read -/

/-- The front of a text up to a rest writes an expression of a level, if no word goes on there. -/
def Recognised (k : Nat) (s : List Char) (e : Expr) (rest : List Char) : Prop :=
  ∃ lexeme, s = lexeme ++ rest ∧ (endsWord rest → Written .full k lexeme e)

theorem Recognised.mono {j : Nat} (h : Recognised k s e rest) (hjk : j ≤ k) :
    Recognised j s e rest := by
  obtain ⟨lexeme, hs, hwritten⟩ := h
  exact ⟨lexeme, hs, fun hend => (hwritten hend).of_le hjk⟩

theorem Recognised.binary {text : List Char} {l r : Expr} (h1 : Blanks b1)
    (h2 : Blanks b2) (hl : Recognised op.level text l (b1 ++ (op.symbol.toList ++ (b2 ++ t))))
    (hr : Recognised (op.level + 1) t r rest) : Recognised op.level text (.binary op l r) rest := by
  obtain ⟨s, htext, hs⟩ := hl
  obtain ⟨t', rfl, ht⟩ := hr
  have hend : endsWord (b1 ++ (op.symbol.toList ++ (b2 ++ (t' ++ rest)))) := by
    cases op <;> exact endsWord_of_stops (h1.stops_append (by decide) _)
  refine ⟨s ++ (b1 ++ (op.symbol.toList ++ (b2 ++ t'))), ?_, fun hrest => ?_⟩
  · rw [htext]
    simp only [append_assoc]
  · exact .binary h1 h2 (hs hend) (ht hrest)

theorem Recognised.sign {sign : Sign} (hsign : sign? s = some (sign, t))
    (h : Recognised 6 (skipBlanks t) e rest) : Recognised 6 s (sign.apply e) rest := by
  obtain ⟨b, hb, ht⟩ := exists_blanks_append t
  obtain ⟨lexeme, hlexeme, hwritten⟩ := h
  have htext : ∀ c : Char, c :: t = c :: (b ++ lexeme) ++ rest := by
    intro c
    rw [cons_append, append_assoc, ← hlexeme, ← ht]
  unfold sign? at hsign
  split at hsign
  · cases hsign
    exact ⟨_, htext '!', fun hend => .not hb (hwritten hend)⟩
  · cases hsign
    refine ⟨_, htext '-', fun hend => ?_⟩
    cases hnumber : e.negated? with
    | none =>
      rw [apply_minus_of_negated?_eq_none hnumber]
      exact .neg hb (hwritten hend) hnumber
    | some e' =>
      rw [apply_minus_of_negated?_eq_some hnumber]
      exact .fold hb (hwritten hend) (.inl trivial) hnumber
  · cases hsign
    exact ⟨_, htext '+', fun hend => .plus hb (hwritten hend) trivial⟩
  · cases hsign

/-- What is read with some number of steps is written there.  A chain goes on behind its operands so
far, so for it the text is the one in which they stand. -/
structure Sound (fuel : Nat) : Prop where
  level : ∀ {k stall stall' : Nat} {s rest : List Char} {e : Expr}, k ≤ levels →
    parseLevel fuel k stall s = (stall', some (.ok e, rest)) → Recognised k s e rest
  chain : ∀ {k stall stall' : Nat} {s rest : List Char} {r : Reading} {e : Expr}, k < levels →
    parseChain fuel k r stall s = (stall', some (.ok e, rest)) →
    ∃ e₀, r = .ok e₀ ∧ ∀ text, Recognised k text e₀ s → Recognised k text e rest
  signed : ∀ {stall stall' : Nat} {s rest : List Char} {e : Expr},
    parseUnary fuel stall s = (stall', some (.ok e, rest)) → Recognised 6 s e rest
  operand : ∀ {stall stall' : Nat} {s rest : List Char} {e : Expr},
    parseOperand fuel stall s = (stall', some (.ok e, rest)) → Recognised 7 s e rest

theorem joined_eq_ok_iff {l : Reading} :
    joined op l r = .ok e ↔ ∃ l' r', l = .ok l' ∧ r = .ok r' ∧ e = .binary op l' r' := by
  cases l with
  | error f => exact ⟨nofun, fun ⟨_, _, hl, _⟩ => absurd hl nofun⟩
  | ok l =>
    cases r with
    | error f => exact ⟨nofun, fun ⟨_, _, _, hr, _⟩ => absurd hr nofun⟩
    | ok r =>
      constructor
      · intro h
        exact ⟨l, r, rfl, rfl, (Except.ok.inj h).symm⟩
      · rintro ⟨l', r', hl, hr, rfl⟩
        rw [Except.ok.inj hl, Except.ok.inj hr]
        rfl

theorem Sound.zero : Sound 0 where
  level _ h := by
    rw [parseLevel] at h
    cases (Prod.mk.inj h).2
  chain _ h := by
    rw [parseChain] at h
    cases (Prod.mk.inj h).2
    exact ⟨_, rfl, fun _ h => h⟩
  signed h := by
    rw [parseUnary] at h
    cases (Prod.mk.inj h).2
  operand h := by
    rw [parseOperand] at h
    cases (Prod.mk.inj h).2

theorem Sound.level_succ (h : Sound fuel) (hk : k ≤ levels)
    (heq : parseLevel (fuel + 1) k stall s = (stall', some (.ok e, rest))) :
    Recognised k s e rest := by
  rw [parseLevel] at heq
  split at heq
  · rename_i hlt
    split at heq
    · rename_i stall0 r rest0 hlevel
      obtain ⟨e0, rfl, hchain⟩ := h.chain hlt heq
      exact hchain s ((h.level hlt hlevel).mono (Nat.le_succ k))
    · cases (Prod.mk.inj heq).2
  · rename_i hge
    obtain rfl : k = 6 := Nat.le_antisymm hk (Nat.not_lt.1 hge)
    exact h.signed heq

theorem Sound.chain_succ (h : Sound fuel) (hk : k < levels)
    (heq : parseChain (fuel + 1) k r stall s = (stall', some (.ok e, rest))) :
    ∃ e0, r = .ok e0 ∧ ∀ text, Recognised k text e0 s → Recognised k text e rest := by
  have stop : ∀ {stall0 : Nat}, (stall0, some (r, s)) = (stall', some (.ok e, rest)) →
      ∃ e0, r = .ok e0 ∧ ∀ text, Recognised k text e0 s → Recognised k text e rest := by
    intro stall0 heq
    cases (Prod.mk.inj heq).2
    exact ⟨e, rfl, fun _ h => h⟩
  rw [parseChain] at heq
  split at heq
  · exact stop heq
  · dsimp only at heq
    split at heq
    · exact stop heq
    · rename_i op t hop
      split at heq
      · rename_i stall0 r' rest0 hlevel
        obtain ⟨e1, hjoined, hchain⟩ := h.chain hk heq
        obtain ⟨l, r, rfl, rfl, rfl⟩ := joined_eq_ok_iff.1 hjoined
        obtain ⟨rfl, hsymbol⟩ := eq_append_of_operator? hop
        obtain ⟨b1, h1, hb1⟩ := exists_blanks_append s
        obtain ⟨b2, h2, hb2⟩ := exists_blanks_append t
        refine ⟨l, rfl, fun text hl => hchain text ?_⟩
        rw [hb1, hsymbol, hb2] at hl
        exact .binary h1 h2 hl (h.level hk hlevel)
      · exact stop heq

theorem Sound.signed_succ (h : Sound fuel)
    (heq : parseUnary (fuel + 1) stall s = (stall', some (.ok e, rest))) :
    Recognised 6 s e rest := by
  rw [parseUnary] at heq
  split at heq
  · rename_i sign t hsign
    split at heq
    · rename_i stall0 r rest0 hsigned
      obtain ⟨hr, rfl⟩ := Prod.mk.inj (Option.some.inj (Prod.mk.inj heq).2)
      cases r with
      | error f => cases hr
      | ok e0 =>
        cases hr
        exact .sign hsign (h.signed hsigned)
    · cases (Prod.mk.inj heq).2
  · exact (h.operand heq).mono (Nat.le_succ 6)

theorem Sound.operand_succ (h : Sound fuel)
    (heq : parseOperand (fuel + 1) stall s = (stall', some (.ok e, rest))) :
    Recognised 7 s e rest := by
  rw [parseOperand.eq_def] at heq
  dsimp only at heq
  split at heq
  · rename_i t
    split at heq
    · rename_i stall0 r rest0 hlevel
      split at heq
      · rename_i rest1 hclose
        cases (Prod.mk.inj heq).2
        obtain ⟨lexeme, hlexeme, hwritten⟩ := h.level (Nat.zero_le _) hlevel
        obtain ⟨b1, h1, hb1⟩ := exists_blanks_append t
        obtain ⟨b2, h2, hb2⟩ := exists_blanks_append rest0
        rw [hclose] at hb2
        have hend : endsWord rest0 :=
          endsWord_of_stops (hb2 ▸ h2.stops_append (by decide) _)
        refine ⟨'(' :: (b1 ++ (lexeme ++ (b2 ++ [')']))), ?_, fun _ => ?_⟩
        · rw [hb1, hlexeme, hb2]
          simp only [cons_append, append_assoc, nil_append]
        · exact .paren h1 h2 (hwritten hend)
      · cases (Prod.mk.inj heq).2
    · cases (Prod.mk.inj heq).2
  · obtain ⟨lexeme, hs, hatom⟩ := lexeme_of_atom? (Prod.mk.inj heq).2
    refine ⟨lexeme, hs, fun hend => ?_⟩
    rcases hatom hend with hliteral | ⟨x, rfl, hpath⟩
    · exact .literal hliteral
    · exact .name hpath

theorem sound (fuel : Nat) : Sound fuel := by
  induction fuel with
  | zero => exact .zero
  | succ fuel ih => exact ⟨ih.level_succ, ih.chain_succ, ih.signed_succ, ih.operand_succ⟩

/-! ## Whole texts -/

theorem skipBlanks_eq_nil_iff {b : List Char} : skipBlanks b = [] ↔ Blanks b := by
  constructor
  · intro h
    obtain ⟨b', hb', heq⟩ := exists_blanks_append b
    rw [h, append_nil] at heq
    exact heq ▸ hb'
  · intro h
    have hskip := skipBlanks_append h []
    rw [append_nil] at hskip
    exact hskip

theorem all_isBlank_eq_false (hs : OpensWith opensExpr s) :
    (b1 ++ (s ++ b2)).all isBlank = false := by
  obtain ⟨c, r, rfl, hc⟩ := hs
  simp [isBlank_of_opensExpr hc]

theorem Parses.parse_eq (h : Parses 0 s r) (hs : OpensWith opensExpr s)
    (h1 : Blanks b1) (h2 : Blanks b2) (htext : text.toList = b1 ++ (s ++ b2)) :
    parse text = r.mapError fun fault => ⟨text, fault⟩ := by
  have hfuel : 9 * s.length ≤ parseFuel text.toList.length + 0 := by
    simp only [htext, parseFuel, length_append]
    omega
  have hfollow : MayFollow 0 b2 := ⟨b2, [], (append_nil b2).symm, h2, .nil⟩
  obtain ⟨stall, hlevel⟩ :=
    h.level hs.length_pos (Nat.zero_le _) _ text.toList.length b2 hfuel hfollow
  have hskip : skipBlanks text.toList = s ++ b2 := by
    rw [htext, skipBlanks_append h1, (hs.append b2).skipBlanks]
  have hblank : text.toList.all isBlank = false := by
    rw [htext, all_isBlank_eq_false hs]
  unfold parse
  dsimp only at hlevel ⊢
  rw [hblank, hskip, hlevel]
  simp only [skipBlanks_eq_nil_iff.2 h2]
  cases r with
  | ok e => rfl
  | error fault => rfl

theorem Renders.parse_eq {v : Style} {read : Expr → Reading} (hv : v.ReadsAs read)
    (h : Renders v text e) : parse text = (read e).mapError fun fault => ⟨text, fault⟩ := by
  obtain ⟨b1, s, b2, h1, h2, htext, hwritten⟩ := h
  exact (hwritten.parses hv).parse_eq (hwritten.opens hv.opens) h1 h2 htext

theorem parseLevel_of_parse (h : parse text = .ok e) :
    ∃ stall rest, Blanks rest ∧ parseLevel (parseFuel text.toList.length) 0 text.toList.length
      (skipBlanks text.toList) = (stall, some (.ok e, rest)) := by
  unfold parse at h
  dsimp only at h
  split at h
  · cases h
  · split at h
    · cases h
    · rename_i stall r rest hlevel
      split at h
      · rename_i hrest
        cases r with
        | error fault => exact absurd h nofun
        | ok e0 =>
          cases h
          exact ⟨stall, rest, skipBlanks_eq_nil_iff.1 hrest, hlevel⟩
      · cases h

theorem parse_eq_ok_iff {text : String} : parse text = .ok e ↔ Renders .full text e := by
  constructor
  · intro h
    obtain ⟨stall, b2, h2, hlevel⟩ := parseLevel_of_parse h
    obtain ⟨s, hs, hwritten⟩ := (sound _).level (Nat.zero_le _) hlevel
    obtain ⟨b1, h1, htext⟩ := exists_blanks_append text.toList
    refine ⟨b1, s, b2, h1, h2, htext.trans (congrArg (b1 ++ ·) hs), hwritten ?_⟩
    refine endsWord_of_stops fun c r hc => isWord_of_isWhiteSpace (h2 c ?_)
    rw [hc]
    exact mem_cons_self
  · intro h
    exact h.parse_eq Style.full_readsAs

end Branchwise.Guard
