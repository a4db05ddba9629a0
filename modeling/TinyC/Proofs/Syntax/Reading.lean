import TinyC.Proofs.Syntax.Lookahead

/-!
# Trees are found again

In front of whatever does not belong to it, the parser finds the tree that spells the tokens
(`Expr.found_parse` and its companions, `Program.ofWords_eq`). So a row of tokens has one tree at
most, and the grammar is not ambiguous.

The induction is on trees. A sum or product is found from the left: the parser has found the left
operand and goes on from there, so what is said of a chain is said with the loop that follows it
still to run. The budget is spent by calls that are nested in one another; sixteen calls for each
token of the phrase are enough for all of them.
-/

namespace TinyC.Syntax

variable {ws us rest vs : List Word} {k : Kind} {w : Word} {n : Nat} {b : Block} {p : Program}

/-! ## Where phrases start and end -/

/-- The kinds that a factor goes on with. -/
def factorKinds : List Kind :=
  [.asKw, .lParen]

/-- The kinds that a term goes on with. -/
def termKinds : List Kind :=
  [Kind.mul, .div] ++ factorKinds

/-- The kinds that an expression goes on with. -/
def exprKinds : List Kind :=
  [Kind.plus, .minus] ++ termKinds

/-- The kinds that an expression or comparison goes on with. -/
def relationalKinds : List Kind :=
  [Kind.lt, .le, .ge, .gt, .neq, .eq] ++ exprKinds

/-- The kinds that an expression starts with. -/
def startKinds : List Kind :=
  [Kind.plus, .minus] ++ primaryKinds

theorem productOp?_eq_none (h : k ∉ termKinds) : productOp? k = none :=
  Option.eq_none_iff_forall_ne_some.mpr fun _ hk =>
    h (List.mem_append_left _ (mem_of_productOp? hk))

theorem sumOp?_eq_none (h : k ∉ exprKinds) : sumOp? k = none :=
  Option.eq_none_iff_forall_ne_some.mpr fun _ hk => h (List.mem_append_left _ (mem_of_sumOp? hk))

theorem relOp?_eq_none (h : k ∉ relationalKinds) : relOp? k = none :=
  Option.eq_none_iff_forall_ne_some.mpr fun _ hk => h (List.mem_append_left _ (mem_of_relOp? hk))

/-- The first of some tokens is of one of these kinds. -/
def Starts (ks : List Kind) (ws : List Word) : Prop :=
  ∃ w vs, ws = w :: vs ∧ w.kind ∈ ks

theorem Starts.cons {ks : List Kind} (h : w.kind = k) (hk : k ∈ ks) : Starts ks (w :: vs) :=
  ⟨w, vs, rfl, h ▸ hk⟩

theorem Starts.append {ks : List Kind} (h : Starts ks us) (vs : List Word) :
    Starts ks (us ++ vs) := by
  obtain ⟨w, xs, rfl, hw⟩ := h
  exact ⟨w, xs ++ vs, rfl, hw⟩

theorem Primary.starts {p : Primary} (h : p.Spells ws) : Starts primaryKinds ws := by
  cases p with
  | name _ | double _ _ | text _ _ =>
    obtain ⟨w, rfl, hw, -⟩ := h
    exact .cons hw (by decide)
  | call f as =>
    obtain ⟨w, l, us, rfl, ⟨hw, -⟩, -⟩ := h
    exact .cons hw (by decide)
  | int value ord =>
    obtain ⟨w, n, rfl, hw | hw, -⟩ := h <;> exact .cons hw (by decide)
  | paren ord inner close =>
    obtain ⟨w, us, r, rfl, hw, -⟩ := h
    exact .cons hw (by decide)
  | gap g => exact h.elim

theorem Casted.starts {c : Casted} {ws : List Word} (h : c.Spells ws) : Starts primaryKinds ws := by
  cases c with
  | primary p => exact Primary.starts (p := p) h
  | cast body ord target =>
    obtain ⟨us, w, v, rfl, hbody, -⟩ := h
    exact (Casted.starts hbody).append _
  | untyped _ _ _ => exact h.elim

theorem Factor.starts {f : Factor} (h : f.Spells ws) : Starts startKinds ws := by
  obtain ⟨ord, ss, body⟩ := f
  obtain ⟨us, vs, rfl, hss, hbody, -⟩ := h
  cases ss with
  | nil =>
    cases hss
    obtain ⟨w, xs, rfl, hw⟩ := Casted.starts hbody
    exact ⟨w, xs, rfl, List.mem_append_right _ hw⟩
  | cons minus ss =>
    obtain ⟨w, xs, rfl, hw, -⟩ := hss
    refine ⟨w, xs ++ vs, rfl, List.mem_append_left _ ?_⟩
    rw [hw]
    cases minus <;> decide

theorem Term.starts {t : Term} {ws : List Word} (h : t.Spells ws) : Starts startKinds ws := by
  cases t with
  | factor f => exact Factor.starts (f := f) h
  | product l op r =>
    obtain ⟨us, w, vs, rfl, hl, -⟩ := h
    exact (Term.starts hl).append _

theorem Expr.starts {e : Expr} {ws : List Word} (h : e.Spells ws) : Starts startKinds ws := by
  cases e with
  | term t => exact Term.starts (t := t) h
  | sum l op r =>
    obtain ⟨us, w, vs, rfl, hl, -⟩ := h
    exact (Expr.starts hl).append _

/-- Behind an argument stands a comma or the parenthesis. -/
theorem Args.starts {as : Args} (h : as.Spells false ws) : Starts [Kind.rParen, .comma] ws := by
  cases as with
  | done ord =>
    obtain ⟨w, rfl, hw, -⟩ := h
    exact .cons hw (by decide)
  | more e rest =>
    obtain ⟨cs, us, vs, rfl, ⟨c, rfl, hc⟩, -⟩ := h
    exact .cons hc (by decide)
  | gap g => exact h.elim

/-! ## Expressions -/

/-- Signs end where something else starts. -/
theorem SignsSpell.signs_eq {ss : List Bool} (h : SignsSpell ss us) (hw : w.kind ∈ primaryKinds)
    (vs : List Word) : signs (us ++ w :: vs) = (ss, w :: vs) := by
  induction ss generalizing us with
  | nil =>
    cases h
    have hminus : w.kind ≠ .minus := fun hk => absurd (hk ▸ hw) (by decide)
    have hplus : w.kind ≠ .plus := fun hk => absurd (hk ▸ hw) (by decide)
    rw [List.nil_append, signs]
    split
    · contradiction
    · contradiction
    · rfl
  | cons minus ss ih =>
    obtain ⟨u, xs, rfl, hu, hxs⟩ := h
    rw [List.cons_append]
    unfold signs
    cases minus with
    | true =>
      rw [if_pos rfl] at hu
      simp only [hu, ih hxs]
    | false =>
      rw [if_neg (by decide)] at hu
      simp only [hu, ih hxs]

theorem closing_eq {c : Close} (h : c.Spells k w) (rest : List Word) :
    closing k (w :: rest) = (c, some rest) := by
  obtain ⟨hw, rfl⟩ := h
  simp [closing, kindOf, ordOf, hw]

/-- The factors of a product are found from the left. -/
def Term.Chained (t : Term) (us rest : List Word) : Prop :=
  ∃ k, k ≤ us.length ∧ ∀ m, 16 * us.length + 2 ≤ m + k →
    term (m + k) (us ++ rest) = termRest m t rest

/-- The terms of a sum are found from the left. -/
def Expr.Chained (e : Expr) (us rest : List Word) : Prop :=
  ∃ k, k ≤ us.length ∧ ∀ m, 16 * us.length + 3 ≤ m + k →
    expr (m + k) (us ++ rest) = exprRest m e rest

theorem not_mem_termKinds {k : Kind} (h : k ∉ exprKinds) : k ∉ termKinds :=
  fun hk => h (List.mem_append_right _ hk)

theorem Term.Chained.found {t : Term} (h : t.Chained us rest) (hn : 16 * us.length + 2 ≤ n)
    (hrest : kindOf rest ∉ termKinds) : term n (us ++ rest) = (t, some rest) := by
  obtain ⟨k, hk, hterm⟩ := h
  obtain ⟨m, rfl⟩ : ∃ m, n = m + 1 + k := ⟨n - 1 - k, by omega⟩
  rw [hterm (m + 1) hn]
  simp only [termRest, productOp?_eq_none hrest]

theorem Expr.Chained.found {e : Expr} (h : e.Chained us rest) (hn : 16 * us.length + 3 ≤ n)
    (hrest : kindOf rest ∉ exprKinds) : expr n (us ++ rest) = (e, some rest) := by
  obtain ⟨k, hk, hexpr⟩ := h
  obtain ⟨m, rfl⟩ : ∃ m, n = m + 1 + k := ⟨n - 1 - k, by omega⟩
  rw [hexpr (m + 1) hn]
  simp only [exprRest, sumOp?_eq_none hrest]

mutual

theorem Primary.found {p : Primary} {us : List Word} (h : p.Spells us) {n : Nat}
    (hn : 16 * us.length ≤ n) {rest : List Word} (hrest : kindOf rest ∉ [Kind.lParen]) :
    primary n (us ++ rest) = (p, some rest) := by
  obtain ⟨m, rfl⟩ : ∃ m, n = m + 1 := by
    obtain ⟨w, vs, rfl, -⟩ := Primary.starts h
    rw [List.length_cons] at hn
    exact ⟨n - 1, by omega⟩
  match p with
  | .name x =>
    obtain ⟨w, rfl, hw, rfl⟩ := h
    have hl : kindOf rest ≠ .lParen := fun h => hrest (h ▸ List.mem_singleton_self _)
    simp [primary, hw, hl]
  | .call f as =>
    obtain ⟨w, l, us, rfl, ⟨hw, rfl⟩, hl, has⟩ := h
    simp only [List.length_cons] at hn
    have hargs := Args.found has (n := m) (by omega) rest
    simp only [List.cons_append, primary, hw, kindOf, hl, List.tail_cons, hargs, if_true]
  | .int value ord =>
    obtain ⟨w, v, rfl, hw, hv, rfl, rfl⟩ := h
    rcases hw with hw | hw <;> simp [primary, hw, hv]
  | .double bits ord =>
    obtain ⟨w, rfl, hw, hv, rfl⟩ := h
    simp [primary, hw, hv]
  | .text s ord =>
    obtain ⟨w, rfl, hw, hv, rfl⟩ := h
    simp [primary, hw, hv]
  | .paren ord inner close =>
    obtain ⟨w, us, r, rfl, hw, rfl, hinner, hr⟩ := h
    simp only [List.length_cons, List.length_append, List.length_nil] at hn
    have hclose : kindOf (r :: rest) ∉ relationalKinds := by
      rw [kindOf, hr.1]
      decide
    have hrel := Relational.found hinner (n := m) (by omega) hclose
    rw [List.cons_append, List.cons_append, List.append_assoc, List.singleton_append]
    simp only [primary, hw, hrel, closing_eq hr]
  | .gap g => exact h.elim

/-- A primary is found first, and then its casts. -/
theorem Casted.found {c : Casted} {us : List Word} (h : c.Spells us) {n : Nat}
    (hn : 16 * us.length ≤ n) {rest : List Word} (hrest : kindOf rest ∉ [Kind.lParen]) :
    ∃ p vs k, primary n (us ++ rest) = (p, some vs) ∧ k < us.length ∧
      ∀ m, castRest (m + k) (.primary p) vs = castRest m c rest := by
  match c with
  | .primary p =>
    obtain ⟨w, vs, rfl, -⟩ := Primary.starts (p := p) h
    have hp := Primary.found (p := p) h hn hrest
    exact ⟨p, rest, 0, hp, Nat.zero_lt_succ _, fun m => rfl⟩
  | .cast body ord target =>
    obtain ⟨us, w, v, rfl, hbody, hw, rfl, hv⟩ := h
    rw [List.length_append] at hn
    have has : kindOf (w :: v :: rest) ∉ [Kind.lParen] := by
      rw [kindOf, hw]
      decide
    obtain ⟨p, vs, k, hp, hk, hcasts⟩ := Casted.found hbody (n := n) (by omega) has
    refine ⟨p, vs, k + 1, ?_, ?_, fun m => ?_⟩
    · rw [List.append_assoc]
      exact hp
    · rw [List.length_append, List.length_cons]
      omega
    · have hcast : castRest (m + 1) body (w :: v :: rest) =
          castRest m (.cast body w.ord target) rest := by
        simp only [castRest, kindOf, ordOf, List.tail_cons, hw, hv, if_true]
      rw [← hcast, ← hcasts, Nat.add_assoc, Nat.add_comm 1 k]
  | .untyped _ _ _ => exact h.elim

theorem Factor.found {f : Factor} {us : List Word} (h : f.Spells us) {n : Nat}
    (hn : 16 * us.length + 1 ≤ n) {rest : List Word} (hrest : kindOf rest ∉ factorKinds) :
    factor n (us ++ rest) = (f, some rest) := by
  match f with
  | .mk ord ss body =>
    obtain ⟨us, vs, rfl, hss, hbody, rfl⟩ := h
    obtain ⟨w, xs, rfl, hw⟩ := Casted.starts hbody
    rw [List.length_append] at hn
    obtain ⟨m, rfl⟩ : ∃ m, n = m + 1 := ⟨n - 1, by omega⟩
    have hl : kindOf rest ∉ [Kind.lParen] := fun h => hrest (List.mem_cons_of_mem _ h)
    obtain ⟨p, vs, k, hp, hk, hcasts⟩ := Casted.found hbody (n := m) (by omega) hl
    have has : kindOf rest ≠ .asKw := fun h => hrest (h ▸ List.mem_cons_self)
    have hcast : castRest m (.primary p) vs = (body, some rest) := by
      obtain ⟨j, rfl⟩ : ∃ j, m = j + 1 + k := ⟨m - 1 - k, by omega⟩
      rw [hcasts, castRest, if_neg has]
    rw [List.cons_append] at hp
    have hord : ordOf (us ++ w :: (xs ++ rest)) = ordOf (us ++ w :: xs) := by
      cases us <;> rfl
    rw [List.append_assoc, List.cons_append]
    simp only [factor, hss.signs_eq hw, hp, hcast, hord]

theorem Term.chain {t : Term} {us : List Word} (h : t.Spells us) {rest : List Word}
    (hrest : kindOf rest ∉ factorKinds) : t.Chained us rest := by
  match t with
  | .factor f =>
    obtain ⟨w, xs, hus, -⟩ := Factor.starts (f := f) h
    refine ⟨1, ?_, fun m hm => ?_⟩
    · rw [hus]
      exact Nat.succ_le_succ (Nat.zero_le _)
    · have hf := Factor.found (f := f) h (n := m) (by omega) hrest
      simp only [term, hf]
  | .product l op r =>
    obtain ⟨us, w, vs, rfl, hl, hop, hr⟩ := h
    have hw : kindOf (w :: (vs ++ rest)) ∉ factorKinds :=
      (by decide : ∀ k ∈ [Kind.mul, .div], k ∉ factorKinds) _ (mem_of_productOp? hop)
    obtain ⟨k, hk, hterm⟩ := Term.chain hl hw
    refine ⟨k + 1, ?_, fun m hm => ?_⟩
    · rw [List.length_append, List.length_cons]
      omega
    · rw [List.length_append, List.length_cons] at hm
      have hfactor := Factor.found hr (n := m) (by omega) hrest
      have hrest : termRest (m + 1) l (w :: (vs ++ rest)) = termRest m (.product l op r) rest := by
        simp only [termRest, kindOf, hop, List.tail_cons, hfactor]
      rw [List.append_assoc, List.cons_append, ← hrest, ← hterm (m + 1) (by omega)]
      congr 1
      omega

theorem Expr.chain {e : Expr} {us : List Word} (h : e.Spells us) {rest : List Word}
    (hrest : kindOf rest ∉ termKinds) : e.Chained us rest := by
  have hfactor : kindOf rest ∉ factorKinds := fun h => hrest (List.mem_append_right _ h)
  match e with
  | .term t =>
    obtain ⟨w, xs, hus, -⟩ := Term.starts (t := t) h
    refine ⟨1, ?_, fun m hm => ?_⟩
    · rw [hus]
      exact Nat.succ_le_succ (Nat.zero_le _)
    · have ht := (Term.chain (t := t) h hfactor).found (n := m) (by omega) hrest
      simp only [expr, ht]
  | .sum l op r =>
    obtain ⟨us, w, vs, rfl, hl, hop, hr⟩ := h
    have hw : kindOf (w :: (vs ++ rest)) ∉ termKinds :=
      (by decide : ∀ k ∈ [Kind.plus, .minus], k ∉ termKinds) _ (mem_of_sumOp? hop)
    obtain ⟨k, hk, hexpr⟩ := Expr.chain hl hw
    refine ⟨k + 1, ?_, fun m hm => ?_⟩
    · rw [List.length_append, List.length_cons]
      omega
    · rw [List.length_append, List.length_cons] at hm
      have hterm := (Term.chain hr hfactor).found (n := m) (by omega) hrest
      have hrest : exprRest (m + 1) l (w :: (vs ++ rest)) = exprRest m (.sum l op r) rest := by
        simp only [exprRest, kindOf, hop, List.tail_cons, hterm]
      rw [List.append_assoc, List.cons_append, ← hrest, ← hexpr (m + 1) (by omega)]
      congr 1
      omega

theorem Relational.found {r : Relational} {us : List Word} (h : r.Spells us) {n : Nat}
    (hn : 16 * us.length + 4 ≤ n) {rest : List Word} (hrest : kindOf rest ∉ relationalKinds) :
    relational n (us ++ rest) = (r, some rest) := by
  obtain ⟨m, rfl⟩ : ∃ m, n = m + 1 := ⟨n - 1, by omega⟩
  have hexpr : kindOf rest ∉ exprKinds := fun h => hrest (List.mem_append_right _ h)
  match r with
  | .value e =>
    have he := (Expr.chain (e := e) h (not_mem_termKinds hexpr)).found (n := m) (by omega) hexpr
    simp only [relational, he, relOp?_eq_none hrest]
  | .compare l op r =>
    obtain ⟨us, w, vs, rfl, hl, hop, hr⟩ := h
    rw [List.length_append, List.length_cons] at hn
    have hw : kindOf (w :: (vs ++ rest)) ∉ exprKinds :=
      (by decide : ∀ k ∈ [Kind.lt, .le, .ge, .gt, .neq, .eq], k ∉ exprKinds) _ (mem_of_relOp? hop)
    have hleft := (Expr.chain hl (not_mem_termKinds hw)).found (n := m) (by omega) hw
    have hright := (Expr.chain hr (not_mem_termKinds hexpr)).found (n := m) (by omega) hexpr
    rw [List.append_assoc, List.cons_append]
    simp only [relational, hleft, kindOf, hop, List.tail_cons, hright]

theorem Args.found {as : Args} {isFirst : Bool} {us : List Word} (h : as.Spells isFirst us)
    {n : Nat} (hn : 16 * us.length + 5 ≤ n) (rest : List Word) :
    args n isFirst (us ++ rest) = (as, some rest) := by
  match as with
  | .done ord =>
    obtain ⟨w, rfl, hw, rfl⟩ := h
    obtain ⟨m, rfl⟩ : ∃ m, n = m + 1 := ⟨n - 1, by omega⟩
    simp [args, kindOf, ordOf, hw]
  | .more e as =>
    obtain ⟨cs, us, vs, rfl, hcs, he, has⟩ := h
    obtain ⟨u, xs, hus, hu⟩ := Expr.starts he
    obtain ⟨v, ys, hvs, hv⟩ := Args.starts has
    have hlen : 0 < us.length := by
      rw [hus]
      exact Nat.zero_lt_succ _
    simp only [List.length_append] at hn
    obtain ⟨m, rfl⟩ : ∃ m, n = m + 2 := ⟨n - 2, by omega⟩
    have hnext : kindOf (vs ++ rest) ∉ exprKinds := by
      rw [hvs]
      exact (by decide : ∀ k ∈ [Kind.rParen, .comma], k ∉ exprKinds) _ hv
    have hexpr := (Expr.chain he (not_mem_termKinds hnext)).found (n := m) (by omega) hnext
    have hargs := Args.found has (n := m) (by omega) rest
    have hone : argument (m + 1) (us ++ (vs ++ rest)) = (.more e as, some rest) := by
      simp only [argument, hexpr, hargs]
    rw [List.append_assoc, List.append_assoc]
    cases isFirst with
    | true =>
      cases hcs
      have hne : kindOf (us ++ (vs ++ rest)) ≠ .rParen := by
        rw [hus]
        exact (by decide : ∀ k ∈ startKinds, k ≠ .rParen) _ hu
      rw [List.nil_append, args, if_neg hne, if_pos rfl, hone]
    | false =>
      obtain ⟨c, rfl, hc⟩ := hcs
      simp only [List.singleton_append, args, kindOf, hc, List.tail_cons, hone]
      rfl
  | .gap g => exact h.elim

end

theorem Expr.found_parse {e : Expr} (h : e.Spells us) (hrest : kindOf rest ∉ exprKinds) :
    parseExpr (us ++ rest) = (e, some rest) := by
  refine (Expr.chain h (not_mem_termKinds hrest)).found ?_ hrest
  rw [budget, List.length_append]
  omega

theorem Relational.found_parse {r : Relational} (h : r.Spells us)
    (hrest : kindOf rest ∉ relationalKinds) : parseRelational (us ++ rest) = (r, some rest) := by
  refine Relational.found h ?_ hrest
  rw [budget, List.length_append]
  omega

theorem Args.found_parse {as : Args} (h : as.Spells true us) (rest : List Word) :
    parseArgs (us ++ rest) = (as, some rest) := by
  refine Args.found h ?_ rest
  rw [budget, List.length_append]
  omega

/-- An expression with the token that closes the phrase. -/
theorem Expr.found_closed {e : Expr} (h : e.Spells us) {c : Close} (hw : c.Spells .semicolon w)
    (rest : List Word) : parseExpr (us ++ w :: rest) = (e, some (w :: rest)) := by
  refine Expr.found_parse h ?_
  rw [kindOf, hw.1]
  decide

/-! ## Declarations and statements -/

theorem typedName_eq {x : Name} {n c t : Word} {type : Ty} (hn : x.Spells n)
    (hc : c.kind = .colon) (ht : variableType? t.kind = some type) (rest : List Word) :
    typedName (n :: c :: t :: rest) = .ok (x, type, rest) := by
  obtain ⟨hn, rfl⟩ := hn
  simp [typedName, kindOf, hn, hc, ht]

theorem Decl.found {d : Decl} (h : d.Spells us) (rest : List Word) :
    declaration (us ++ rest) = (d, some rest) := by
  cases d with
  | mk constant x type init close =>
    obtain ⟨w, n, c, t, us, e, rfl, hw, hn, hc, ht, hinit, he⟩ := h
    have hname := typedName_eq hn hc ht (us ++ e :: rest)
    have hvalue : initializer (us ++ e :: rest) = (init, some (e :: rest)) := by
      cases init with
      | none =>
        cases hinit
        simp [initializer, kindOf, he.1]
      | some a =>
        obtain ⟨v, vs, rfl, hv, ha⟩ := hinit
        simp [initializer, kindOf, hv, Expr.found_closed ha he rest]
    have hconst : decide (w.kind = .constKw) = constant := by
      rw [hw]
      cases constant <;> rfl
    simp only [List.append_assoc, List.cons_append, List.nil_append, declaration, List.tail_cons,
      hname, hvalue, closing_eq he, kindOf, hconst]
  | gap g => exact h.elim

theorem Decl.starts {d : Decl} (h : d.Spells ws) : Starts [Kind.letKw, .constKw] ws := by
  cases d with
  | mk constant x type init close =>
    obtain ⟨w, n, c, t, us, e, rfl, hw, -⟩ := h
    refine ⟨w, n :: c :: t :: us ++ [e], rfl, ?_⟩
    rw [hw]
    cases constant <;> decide
  | gap g => exact h.elim

theorem Stmt.starts {s : Stmt} (h : s.Spells ws) : Starts (statementKinds.erase .rBrace) ws := by
  cases s with
  | empty =>
    obtain ⟨w, rfl, hw⟩ := h
    exact .cons hw (by decide)
  | declare d =>
    obtain ⟨w, vs, rfl, hw⟩ := Decl.starts (d := d) h
    refine ⟨w, vs, rfl, ?_⟩
    exact (by decide : ∀ k ∈ [Kind.letKw, .constKw], k ∈ statementKinds.erase .rBrace) _ hw
  | branch i =>
    obtain ⟨w, us, rfl, hw, -⟩ := h
    exact .cons hw (by decide)
  | loop _ _ _ | ret _ _ _ =>
    obtain ⟨w, us, vs, rfl, hw, -⟩ := h
    exact .cons hw (by decide)
  | brk _ _ | cont _ _ =>
    obtain ⟨w, e, rfl, hw, -⟩ := h
    exact .cons hw (by decide)
  | call _ _ _ | assign _ _ _ =>
    obtain ⟨w, l, us, e, rfl, ⟨hw, -⟩, -⟩ := h
    exact .cons hw (by decide)
  | unfinished x g => exact h.elim
  | gap g => exact h.elim

theorem Stmts.starts {ss : Stmts} (h : ss.Spells ws) : Starts statementKinds ws := by
  cases ss with
  | done ord =>
    obtain ⟨w, rfl, hw, -⟩ := h
    exact .cons hw (by decide)
  | more s rest =>
    obtain ⟨us, vs, rfl, hs, -⟩ := h
    obtain ⟨w, xs, heq, hw⟩ := (Stmt.starts hs).append vs
    exact ⟨w, xs, heq, List.mem_of_mem_erase hw⟩

theorem Block.starts (h : b.Spells ws) : ∃ w vs, ws = w :: vs ∧ w.kind = .lBrace := by
  cases b with
  | stmts ss =>
    obtain ⟨w, us, rfl, hw, -⟩ := h
    exact ⟨w, us, rfl, hw⟩
  | gap g => exact h.elim

/-- A condition stands before its block. -/
theorem Relational.found_block {r : Relational} (h : r.Spells us) (hb : b.Spells vs)
    (rest : List Word) : parseRelational (us ++ (vs ++ rest)) = (r, some (vs ++ rest)) := by
  refine Relational.found_parse h ?_
  obtain ⟨w, xs, rfl, hw⟩ := Block.starts hb
  rw [List.cons_append, kindOf, hw]
  decide

theorem returned_eq {value : Option Expr} (h : ValueSpells value us) {close : Close} {e : Word}
    (he : close.Spells .semicolon e) (ord : Nat) (rest : List Word) :
    returned ord (us ++ e :: rest) = (.ret ord value close, some rest) := by
  cases value with
  | none =>
    cases h
    obtain ⟨he, rfl⟩ := he
    simp [returned, kindOf, ordOf, he]
  | some a =>
    obtain ⟨u, xs, hus, hu⟩ := Expr.starts (e := a) h
    have hne : kindOf (us ++ e :: rest) ≠ .semicolon := by
      rw [hus]
      exact (by decide : ∀ k ∈ startKinds, k ≠ .semicolon) _ hu
    simp only [returned, hne, if_false, Expr.found_closed h he, closing_eq he]

mutual

theorem Stmt.found {s : Stmt} {us : List Word} (h : s.Spells us) {n : Nat}
    (hn : 16 * us.length + 1 ≤ n) {rest : List Word} (hrest : kindOf rest ≠ .elseKw) :
    stmt n (us ++ rest) = (s, some rest) := by
  obtain ⟨m, rfl⟩ : ∃ m, n = m + 1 := ⟨n - 1, by omega⟩
  match s with
  | .empty =>
    obtain ⟨w, rfl, hw⟩ := h
    simp [stmt, hw]
  | .declare d =>
    have hd := Decl.found (d := d) h rest
    obtain ⟨w, vs, rfl, hw⟩ := Decl.starts (d := d) h
    rw [List.cons_append] at hd ⊢
    rw [List.mem_cons, List.mem_singleton] at hw
    rcases hw with hw | hw <;> simp only [stmt, hw, hd]
  | .branch i =>
    obtain ⟨w, us, rfl, hw, hi⟩ := h
    rw [List.length_cons] at hn
    simp only [List.cons_append, stmt, hw, If.found hi (n := m) (by omega) hrest]
  | .loop ord cond body =>
    obtain ⟨w, us, vs, rfl, hw, rfl, hcond, hbody⟩ := h
    simp only [List.length_append, List.length_cons] at hn
    have hblock := Block.found hbody (n := m) (by omega) rest
    rw [List.cons_append, List.cons_append, List.append_assoc]
    simp only [stmt, hw, Relational.found_block hcond hbody, hblock]
  | .ret ord value close =>
    obtain ⟨w, us, e, rfl, hw, rfl, hvalue, he⟩ := h
    rw [List.cons_append, List.cons_append, List.append_assoc]
    simp only [List.singleton_append, stmt, hw, returned_eq hvalue he]
  | .brk ord close =>
    obtain ⟨w, e, rfl, hw, rfl, he⟩ := h
    simp only [List.cons_append, List.nil_append, stmt, hw, closing_eq he]
  | .cont ord close =>
    obtain ⟨w, e, rfl, hw, rfl, he⟩ := h
    simp only [List.cons_append, List.nil_append, stmt, hw, closing_eq he]
  | .call f as close =>
    obtain ⟨w, l, us, e, rfl, ⟨hw, rfl⟩, hl, has, he⟩ := h
    simp only [List.cons_append, List.append_assoc, List.nil_append, stmt, hw, named, kindOf, hl,
      List.tail_cons, Args.found_parse has, closing_eq he]
  | .assign x a close =>
    obtain ⟨w, l, us, e, rfl, ⟨hw, rfl⟩, hl, ha, he⟩ := h
    simp only [List.cons_append, List.append_assoc, List.nil_append, stmt, hw, named, kindOf, hl,
      List.tail_cons, Expr.found_closed ha he, closing_eq he]
  | .unfinished x g => exact h.elim
  | .gap g => exact h.elim

theorem If.found {i : If} {us : List Word} (h : i.Spells us) {n : Nat}
    (hn : 16 * us.length + 2 ≤ n) {rest : List Word} (hrest : kindOf rest ≠ .elseKw) :
    branch n (us ++ rest) = (i, some rest) := by
  match i with
  | .mk cond body alternative =>
    obtain ⟨us, vs, xs, rfl, hcond, hbody, halt⟩ := h
    obtain ⟨m, rfl⟩ : ∃ m, n = m + 1 := ⟨n - 1, by omega⟩
    simp only [List.length_append] at hn
    have hblock := Block.found hbody (n := m) (by omega) (xs ++ rest)
    have helse := Else.found halt (n := m) (by omega) hrest
    rw [List.append_assoc, List.append_assoc]
    simp only [branch, Relational.found_block hcond hbody, hblock, helse]

theorem Else.found {a : Else} {us : List Word} (h : a.Spells us) {n : Nat}
    (hn : 16 * us.length + 1 ≤ n) {rest : List Word} (hrest : kindOf rest ≠ .elseKw) :
    otherwise n (us ++ rest) = (a, some rest) := by
  obtain ⟨m, rfl⟩ : ∃ m, n = m + 1 := ⟨n - 1, by omega⟩
  match a with
  | .none =>
    cases h
    rw [List.nil_append, otherwise, if_pos hrest]
  | .block b =>
    obtain ⟨w, us, rfl, hw, hb⟩ := h
    rw [List.length_cons] at hn
    have hblock := Block.found hb (n := m) (by omega) rest
    obtain ⟨v, xs, rfl, hv⟩ := Block.starts hb
    rw [List.cons_append] at hblock
    simp only [List.cons_append, otherwise, kindOf, hw, ne_eq, not_true_eq_false, if_false,
      List.tail_cons, hv, hblock]
  | .branch i =>
    obtain ⟨w, v, us, rfl, hw, hv, hi⟩ := h
    simp only [List.length_cons] at hn
    have hbranch := If.found hi (n := m) (by omega) hrest
    simp only [List.cons_append, otherwise, kindOf, hw, ne_eq, not_true_eq_false, if_false,
      List.tail_cons, hv, hbranch]
  | .gap g => exact h.elim

theorem Block.found {b : Block} {us : List Word} (h : b.Spells us) {n : Nat}
    (hn : 16 * us.length ≤ n) (rest : List Word) : block n (us ++ rest) = (b, some rest) := by
  match b with
  | .stmts ss =>
    obtain ⟨w, us, rfl, hw, hss⟩ := h
    rw [List.length_cons] at hn
    obtain ⟨m, rfl⟩ : ∃ m, n = m + 1 := ⟨n - 1, by omega⟩
    have hstmts := Stmts.found hss (n := m) (by omega) rest
    simp only [List.cons_append, block, kindOf, hw, if_true, List.tail_cons, hstmts]
  | .gap g => exact h.elim

theorem Stmts.found {ss : Stmts} {us : List Word} (h : ss.Spells us) {n : Nat}
    (hn : 16 * us.length + 2 ≤ n) (rest : List Word) : stmts n (us ++ rest) = (ss, some rest) := by
  obtain ⟨m, rfl⟩ : ∃ m, n = m + 1 := ⟨n - 1, by omega⟩
  match ss with
  | .done ord =>
    obtain ⟨w, rfl, hw, rfl⟩ := h
    simp [stmts, kindOf, ordOf, hw]
  | .more s ss =>
    obtain ⟨us, vs, rfl, hs, hss⟩ := h
    obtain ⟨u, xs, hus, hu⟩ := Stmt.starts hs
    obtain ⟨v, ys, hvs, hv⟩ := Stmts.starts hss
    have hlen : 0 < us.length := by
      rw [hus]
      exact Nat.zero_lt_succ _
    rw [List.length_append] at hn
    have hbrace : kindOf (us ++ (vs ++ rest)) ≠ .rBrace := by
      rw [hus]
      exact (by decide : ∀ k ∈ statementKinds.erase .rBrace, k ≠ .rBrace) _ hu
    have helse : kindOf (vs ++ rest) ≠ .elseKw := by
      rw [hvs]
      exact (by decide : ∀ k ∈ statementKinds, k ≠ .elseKw) _ hv
    have hstmt := Stmt.found hs (n := m) (by omega) helse
    have hstmts := Stmts.found hss (n := m) (by omega) rest
    rw [List.append_assoc, stmts, if_neg hbrace]
    simp only [hstmt, hstmts]

end

/-! ## Functions and programs -/

theorem Param.found {p : Param} (h : p.Spells us) (rest : List Word) :
    param (us ++ rest) = .ok (p, rest) := by
  obtain ⟨constant, x, type⟩ := p
  obtain ⟨us, n, c, t, rfl, hus, hn, hc, ht⟩ := h
  have hname := typedName_eq hn hc ht rest
  cases constant with
  | true =>
    obtain ⟨w, rfl, hw⟩ := hus
    simp [param, kindOf, hw, hname]
  | false =>
    cases hus
    simp [param, kindOf, hn.1, hname]

theorem Param.starts {p : Param} (h : p.Spells ws) : Starts [Kind.constKw, .ident] ws := by
  obtain ⟨constant, x, type⟩ := p
  obtain ⟨us, n, c, t, rfl, hus, hn, -⟩ := h
  cases constant with
  | true =>
    obtain ⟨w, rfl, hw⟩ := hus
    exact .cons hw (by decide)
  | false =>
    cases hus
    exact .cons hn.1 (by decide)

theorem ParamsSpell.starts {ps : List Param} (h : ParamsSpell ps ws) :
    Starts [Kind.constKw, .ident] ws := by
  match ps with
  | [] => exact h.elim
  | [p] => exact Param.starts (p := p) h
  | p :: q :: ps =>
    obtain ⟨us, c, vs, rfl, hp, -⟩ := h
    exact (Param.starts hp).append _

theorem ParamsSpell.found {ps : List Param} {us : List Word} (h : ParamsSpell ps us) {n : Nat}
    (hn : us.length ≤ n) {rest : List Word} (hrest : kindOf rest ≠ .comma) :
    params n (us ++ rest) = (ps, .ok rest) := by
  obtain ⟨m, rfl⟩ : ∃ m, n = m + 1 := by
    obtain ⟨w, vs, rfl, -⟩ := h.starts
    rw [List.length_cons] at hn
    exact ⟨n - 1, by omega⟩
  match ps with
  | [] => exact h.elim
  | [p] =>
    have hp := Param.found (p := p) h rest
    simp only [params, hp, hrest, if_false]
  | p :: q :: ps =>
    obtain ⟨us, c, vs, rfl, hp, hc, hps⟩ := h
    rw [List.length_append, List.length_cons] at hn
    have hparam := Param.found hp (c :: (vs ++ rest))
    have hparams := ParamsSpell.found hps (n := m) (by omega) hrest
    rw [List.append_assoc, List.cons_append]
    simp only [params, hparam, kindOf, hc, if_true, List.tail_cons, hparams]

theorem body_eq {r a t : Word} {type : Ty} (hr : r.kind = .rParen) (ha : a.kind = .arrow)
    (ht : resultType? t.kind = some type) (hb : b.Spells vs) (rest : List Word) :
    body (r :: a :: t :: (vs ++ rest)) = (.ok (type, b), some rest) := by
  have hblock : parseBlock (vs ++ rest) = (b, some rest) := by
    refine Block.found hb ?_ rest
    rw [budget, List.length_append]
    omega
  simp only [body, kindOf, hr, ha, ht, ne_eq, not_true_eq_false, if_false, List.tail_cons, hblock]

theorem Fn.found {f : Fn} (h : f.Spells us) :
    ∃ w vs, us = w :: vs ∧ w.kind = .fnKw ∧ ∀ rest, function (vs ++ rest) = (f, some rest) := by
  match f with
  | .mk name ps (.ok (type, b)) =>
    obtain ⟨w, n, l, us, r, a, t, vs, rfl, hw, ⟨hn, rfl⟩, hl, hps, hr, ha, ht, hb⟩ := h
    refine ⟨w, n :: l :: us ++ r :: a :: t :: vs, rfl, hw, fun rest => ?_⟩
    have hbody := body_eq hr ha ht hb rest
    rcases hps with ⟨rfl, rfl⟩ | hps
    · simp only [List.cons_append, List.nil_append, function, hn, ne_eq, not_true_eq_false,
        if_false, kindOf, hl, List.tail_cons, hr, if_true, hbody]
    · have hstart : kindOf (us ++ r :: a :: t :: (vs ++ rest)) ≠ .rParen := by
        obtain ⟨u, xs, rfl, hu⟩ := hps.starts
        exact (by decide : ∀ k ∈ [Kind.constKw, .ident], k ≠ .rParen) _ hu
      have hcomma : kindOf (r :: a :: t :: (vs ++ rest)) ≠ .comma := by
        rw [kindOf, hr]
        decide
      have hlen : us.length ≤ budget (l :: (us ++ r :: a :: t :: (vs ++ rest))) := by
        rw [budget, List.length_cons, List.length_append]
        omega
      have hparams := hps.found hlen hcomma
      simp only [List.cons_append, List.append_assoc, function, hn, ne_eq, not_true_eq_false,
        if_false, kindOf.eq_1, hl, List.tail_cons, hstart, hparams, hbody]
  | .mk name ps (.error g) => exact h.elim
  | .gap g => exact h.elim

theorem parseDecls_eq {ds : List Decl} (h : RowSpells Decl.Spells ds us) (hn : us.length < n)
    (hrest : kindOf rest ∉ [Kind.letKw, .constKw]) :
    parseDecls n (us ++ rest) = (ds, some rest) := by
  obtain ⟨m, rfl⟩ : ∃ m, n = m + 1 := ⟨n - 1, by omega⟩
  induction ds generalizing us m with
  | nil =>
    cases h
    rw [List.mem_cons, List.mem_singleton] at hrest
    rw [List.nil_append, parseDecls, if_neg hrest]
  | cons d ds ih =>
    obtain ⟨us, vs, rfl, hd, hds⟩ := h
    have hdecl := Decl.found hd (vs ++ rest)
    obtain ⟨w, xs, rfl, hw⟩ := Decl.starts hd
    rw [List.length_append, List.length_cons] at hn
    obtain ⟨j, rfl⟩ : ∃ j, m = j + 1 := ⟨m - 1, by omega⟩
    rw [List.mem_cons, List.mem_singleton] at hw
    rw [List.append_assoc, parseDecls, if_pos (by exact hw), hdecl]
    simp only [ih hds j (by omega)]

theorem parseFunctions_eq {fs : List Fn} (h : RowSpells Fn.Spells fs us) (hn : us.length < n)
    (hrest : kindOf rest ≠ .fnKw) : parseFunctions n (us ++ rest) = (fs, some rest) := by
  obtain ⟨m, rfl⟩ : ∃ m, n = m + 1 := ⟨n - 1, by omega⟩
  induction fs generalizing us m with
  | nil =>
    cases h
    rw [List.nil_append, parseFunctions, if_neg hrest]
  | cons f fs ih =>
    obtain ⟨us, vs, rfl, hf, hfs⟩ := h
    obtain ⟨w, xs, rfl, hw, hfunction⟩ := Fn.found hf
    rw [List.length_append, List.length_cons] at hn
    obtain ⟨j, rfl⟩ : ∃ j, m = j + 1 := ⟨m - 1, by omega⟩
    rw [List.append_assoc, List.cons_append, parseFunctions, if_pos (by exact hw),
      List.tail_cons, hfunction]
    simp only [ih hfs j (by omega)]

/-- The declarations and functions of a tree are found in the tokens it spells. -/
theorem Program.found (h : p.Spells ws) :
    ∃ vs w, parseDecls (budget ws) ws = (p.decls, some vs) ∧
      parseFunctions (budget vs) vs = (p.functions, some [w]) ∧ p.close.Spells .eof w := by
  obtain ⟨ds, fs, close⟩ := p
  obtain ⟨us, vs, w, rfl, hds, hfs, hw⟩ := h
  have heof : kindOf [w] ≠ .fnKw := by
    rw [kindOf, hw.1]
    decide
  have hstart : kindOf (vs ++ [w]) ∉ [Kind.letKw, .constKw] := by
    cases fs with
    | nil =>
      cases hfs
      rw [List.nil_append, kindOf, hw.1]
      decide
    | cons f fs =>
      obtain ⟨xs, ys, rfl, hf, -⟩ := hfs
      obtain ⟨v, zs, rfl, hv, -⟩ := Fn.found hf
      rw [List.cons_append, List.cons_append, kindOf, hv]
      decide
  refine ⟨vs ++ [w], w, parseDecls_eq hds ?_ hstart, parseFunctions_eq hfs ?_ heof, hw⟩
  · rw [budget, List.length_append]
    omega
  · rw [budget, List.length_append]
    omega

/-- **The tree that spells some tokens is the one found for them.** -/
theorem Program.ofWords_eq (h : p.Spells ws) : Program.ofWords ws = p := by
  obtain ⟨vs, w, hdecls, hfunctions, hw⟩ := Program.found h
  simp only [Program.ofWords, hdecls, hfunctions, closing_eq hw]

/-- A tree that spells the tokens of a row has no gap. -/
theorem Program.whole (hrow : Row n ws) (h : p.Spells ws) : p.Whole := by
  obtain ⟨vs, w, hdecls, hfunctions, hw⟩ := Program.found h
  have hbudget (vs : List Word) : vs.length < min (budget vs) (budget (vs ++ [])) := by
    rw [budget, budget, List.length_append]
    omega
  have hds := agrees_parseDecls (z := []) hrow (hbudget ws)
  rw [hdecls] at hds
  generalize parseDecls (budget (ws ++ [])) (ws ++ []) = r at hds
  cases hds with
  | found _ hds _ hvs _ =>
    have hfs := agrees_parseFunctions (z := []) hvs (hbudget vs)
    rw [hfunctions] at hfs
    generalize parseFunctions (budget (vs ++ [])) (vs ++ []) = r at hfs
    cases hfs with
    | found _ hfs _ _ _ => exact ⟨hds, hfs, hw.2 ▸ trivial⟩

end TinyC.Syntax
