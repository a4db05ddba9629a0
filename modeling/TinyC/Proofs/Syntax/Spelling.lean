import TinyC.Proofs.Syntax.Grammar
import TinyC.Syntax.Parser

/-!
# Trees and their tokens

A tree spells a row of tokens if the row is the one that the tree was made for: `Program.Spells`
and its companions say, for each form of tree, what tokens it stands for and which of them it
mentions by number. A tree with a gap spells nothing.

The tokens that a tree spells can be derived from the grammar (`Program.derives`).
-/

namespace TinyC.Syntax

variable {ws : List Word} {k : Kind}

/-- The name is that of an identifier. -/
def Name.Spells (x : Name) (w : Word) : Prop :=
  w.kind = .ident ∧ x = ⟨nameText w.value, w.ord⟩

/-- The phrase is closed by a token of a kind. -/
def Close.Spells (k : Kind) (c : Close) (w : Word) : Prop :=
  w.kind = k ∧ c = .word w.ord

/-- The tokens are these signs. -/
def SignsSpell : List Bool → List Word → Prop
  | [], ws => ws = []
  | minus :: ss, ws => ∃ w us, ws = w :: us ∧ w.kind = (if minus then .minus else .plus) ∧
    SignsSpell ss us

mutual

/-- The tokens are those of a sum. -/
def Expr.Spells : Expr → List Word → Prop
  | .term t, ws => t.Spells ws
  | .sum l op r, ws => ∃ us w vs, ws = us ++ w :: vs ∧ l.Spells us ∧ sumOp? w.kind = some op ∧
    r.Spells vs

/-- The tokens are those of a product. -/
def Term.Spells : Term → List Word → Prop
  | .factor f, ws => f.Spells ws
  | .product l op r, ws => ∃ us w vs, ws = us ++ w :: vs ∧ l.Spells us ∧
    productOp? w.kind = some op ∧ r.Spells vs

/-- The tokens are signs and what stands behind them. -/
def Factor.Spells : Factor → List Word → Prop
  | .mk ord ss body, ws => ∃ us vs, ws = us ++ vs ∧ SignsSpell ss us ∧ body.Spells vs ∧
    ordOf ws = ord

/-- The tokens are a primary and its casts. -/
def Casted.Spells : Casted → List Word → Prop
  | .primary p, ws => p.Spells ws
  | .cast body ord target, ws => ∃ us w v, ws = us ++ [w, v] ∧ body.Spells us ∧ w.kind = .asKw ∧
    w.ord = ord ∧ variableType? v.kind = some target
  | .untyped _ _ _, _ => False

/-- The tokens are those of a primary. -/
def Primary.Spells : Primary → List Word → Prop
  | .name x, ws => ∃ w, ws = [w] ∧ x.Spells w
  | .call f as, ws =>
    ∃ w l us, ws = w :: l :: us ∧ f.Spells w ∧ l.kind = .lParen ∧ as.Spells true us
  | .int value ord, ws => ∃ w n, ws = [w] ∧ (w.kind = .uintLiteral ∨ w.kind = .charLiteral) ∧
    w.value = .int n ∧ n.toUInt64 = value ∧ w.ord = ord
  | .double bits ord, ws => ∃ w, ws = [w] ∧ w.kind = .doubleLiteral ∧ w.value = .bits bits ∧
    w.ord = ord
  | .text s ord, ws => ∃ w, ws = [w] ∧ w.kind = .stringLiteral ∧ w.value = .text s ∧ w.ord = ord
  | .paren ord inner close, ws => ∃ w us r, ws = w :: us ++ [r] ∧ w.kind = .lParen ∧ w.ord = ord ∧
    inner.Spells us ∧ close.Spells .rParen r
  | .gap _, _ => False

/-- The tokens are those of an expression or comparison. -/
def Relational.Spells : Relational → List Word → Prop
  | .value e, ws => e.Spells ws
  | .compare l op r, ws => ∃ us w vs, ws = us ++ w :: vs ∧ l.Spells us ∧ relOp? w.kind = some op ∧
    r.Spells vs

/-- The tokens are arguments and the parenthesis behind them; a comma stands before every argument
but the first. -/
def Args.Spells : Args → Bool → List Word → Prop
  | .done ord, _, ws => ∃ w, ws = [w] ∧ w.kind = .rParen ∧ w.ord = ord
  | .more e rest, isFirst, ws => ∃ cs us vs, ws = cs ++ us ++ vs ∧
    (if isFirst then cs = [] else ∃ c, cs = [c] ∧ c.kind = .comma) ∧ e.Spells us ∧
    rest.Spells false vs
  | .gap _, _, _ => False

end

/-- The tokens are an initial value and what stands before it, or there are none. -/
def InitSpells : Option Expr → List Word → Prop
  | none, ws => ws = []
  | some e, ws => ∃ w us, ws = w :: us ∧ w.kind = .assign ∧ e.Spells us

/-- The tokens are those of a declaration. -/
def Decl.Spells : Decl → List Word → Prop
  | .mk constant x type init close, ws => ∃ w n c t us e, ws = w :: n :: c :: t :: us ++ [e] ∧
    w.kind = (if constant then .constKw else .letKw) ∧ x.Spells n ∧ c.kind = .colon ∧
    variableType? t.kind = some type ∧ InitSpells init us ∧ close.Spells .semicolon e
  | .gap _, _ => False

/-- The tokens are those of a value, or there are none. -/
def ValueSpells : Option Expr → List Word → Prop
  | none, ws => ws = []
  | some e, ws => e.Spells ws

mutual

/-- The tokens are those of a statement. -/
def Stmt.Spells : Stmt → List Word → Prop
  | .empty, ws => ∃ w, ws = [w] ∧ w.kind = .semicolon
  | .declare d, ws => d.Spells ws
  | .branch i, ws => ∃ w us, ws = w :: us ∧ w.kind = .ifKw ∧ i.Spells us
  | .loop ord cond body, ws => ∃ w us vs, ws = w :: us ++ vs ∧ w.kind = .whileKw ∧ w.ord = ord ∧
    cond.Spells us ∧ body.Spells vs
  | .ret ord value close, ws => ∃ w us e, ws = w :: us ++ [e] ∧ w.kind = .returnKw ∧ w.ord = ord ∧
    ValueSpells value us ∧ close.Spells .semicolon e
  | .brk ord close, ws => ∃ w e, ws = [w, e] ∧ w.kind = .breakKw ∧ w.ord = ord ∧
    close.Spells .semicolon e
  | .cont ord close, ws => ∃ w e, ws = [w, e] ∧ w.kind = .continueKw ∧ w.ord = ord ∧
    close.Spells .semicolon e
  | .call f as close, ws => ∃ w l us e, ws = w :: l :: us ++ [e] ∧ f.Spells w ∧ l.kind = .lParen ∧
    as.Spells true us ∧ close.Spells .semicolon e
  | .assign x a close, ws => ∃ w l us e, ws = w :: l :: us ++ [e] ∧ x.Spells w ∧ l.kind = .assign ∧
    a.Spells us ∧ close.Spells .semicolon e
  | .unfinished _ _, _ => False
  | .gap _, _ => False

/-- The tokens are a condition and its blocks. -/
def If.Spells : If → List Word → Prop
  | .mk cond body alternative, ws => ∃ us vs xs, ws = us ++ (vs ++ xs) ∧ cond.Spells us ∧
    body.Spells vs ∧ alternative.Spells xs

/-- The tokens are what stands behind the block of a condition. -/
def Else.Spells : Else → List Word → Prop
  | .none, ws => ws = []
  | .block b, ws => ∃ w us, ws = w :: us ∧ w.kind = .elseKw ∧ b.Spells us
  | .branch i, ws => ∃ w v us, ws = w :: v :: us ∧ w.kind = .elseKw ∧ v.kind = .ifKw ∧ i.Spells us
  | .gap _, _ => False

/-- The tokens are those of a block. -/
def Block.Spells : Block → List Word → Prop
  | .stmts ss, ws => ∃ w us, ws = w :: us ∧ w.kind = .lBrace ∧ ss.Spells us
  | .gap _, _ => False

/-- The tokens are statements and the brace behind them. -/
def Stmts.Spells : Stmts → List Word → Prop
  | .done ord, ws => ∃ w, ws = [w] ∧ w.kind = .rBrace ∧ w.ord = ord
  | .more s rest, ws => ∃ us vs, ws = us ++ vs ∧ s.Spells us ∧ rest.Spells vs

end

/-- The tokens are those of a parameter. -/
def Param.Spells (p : Param) (ws : List Word) : Prop :=
  ∃ us n c t, ws = us ++ [n, c, t] ∧
    (if p.constant then ∃ w : Word, us = [w] ∧ w.kind = .constKw else us = []) ∧ p.x.Spells n ∧
    c.kind = .colon ∧ variableType? t.kind = some p.type

/-- The tokens are those of one parameter or more. -/
def ParamsSpell : List Param → List Word → Prop
  | [], _ => False
  | [p], ws => p.Spells ws
  | p :: ps, ws => ∃ us c vs, ws = us ++ c :: vs ∧ p.Spells us ∧ c.kind = .comma ∧ ParamsSpell ps vs

/-- The tokens are those of a function. -/
def Fn.Spells : Fn → List Word → Prop
  | .mk name ps (.ok (type, body)), ws => ∃ w n l us r a t vs,
    ws = w :: n :: l :: us ++ r :: a :: t :: vs ∧ w.kind = .fnKw ∧ name.Spells n ∧
    l.kind = .lParen ∧ (ps = [] ∧ us = [] ∨ ParamsSpell ps us) ∧ r.kind = .rParen ∧
    a.kind = .arrow ∧ resultType? t.kind = some type ∧ body.Spells vs
  | _, _ => False

/-- The tokens are those of phrases in a row. -/
def RowSpells {α : Type} (S : α → List Word → Prop) : List α → List Word → Prop
  | [], ws => ws = []
  | a :: as, ws => ∃ us vs, ws = us ++ vs ∧ S a us ∧ RowSpells S as vs

/-- The tokens are those of a program. -/
def Program.Spells (p : Program) (ws : List Word) : Prop :=
  ∃ us vs w, ws = us ++ (vs ++ [w]) ∧ RowSpells Decl.Spells p.decls us ∧
    RowSpells Fn.Spells p.functions vs ∧ p.close.Spells .eof w

/-! ## What is spelled can be derived -/

/-- The kinds of a row of tokens. -/
def kinds (ws : List Word) : List Kind :=
  ws.map Word.kind

@[simp] theorem kinds_nil : kinds [] = [] :=
  rfl

@[simp] theorem kinds_cons (w : Word) (ws : List Word) : kinds (w :: ws) = w.kind :: kinds ws :=
  rfl

@[simp] theorem kinds_append (us vs : List Word) : kinds (us ++ vs) = kinds us ++ kinds vs :=
  List.map_append

theorem mem_of_variableType? {type : Ty} (h : variableType? k = some type) :
    k ∈ [Kind.intKw, .doubleKw] := by
  cases k <;> simp [variableType?] at h ⊢

theorem mem_of_resultType? {type : Ty} (h : resultType? k = some type) :
    k ∈ [Kind.intKw, .doubleKw, .voidKw] := by
  cases k <;> simp [resultType?, variableType?] at h ⊢

theorem mem_of_sumOp? {op : ArithOp} (h : sumOp? k = some op) : k ∈ [Kind.plus, .minus] := by
  cases k <;> simp [sumOp?] at h ⊢

theorem mem_of_productOp? {op : ArithOp} (h : productOp? k = some op) : k ∈ [Kind.mul, .div] := by
  cases k <;> simp [productOp?] at h ⊢

theorem mem_of_relOp? {op : RelOp} (h : relOp? k = some op) :
    k ∈ [Kind.lt, .le, .ge, .gt, .neq, .eq] := by
  cases k <;> simp [relOp?] at h ⊢

/-- A chain of phrases with operators between them grows at its end. -/
theorem Derives.chain {c : Category} {first item : Rule} {ops : List Kind} {ks ls : List Kind}
    (hc : c.rule = .row [first, .many (.row [.oneOf ops, item])]) (h : Derives (.phrase c) ks)
    (hk : k ∈ ops) (hi : Derives item ls) : Derives (.phrase c) (ks ++ k :: ls) := by
  cases h with
  | phrase h =>
    rw [hc] at h
    cases h with
    | both hfirst hmany =>
      apply Derives.phrase
      rw [hc, List.append_assoc]
      exact .both hfirst (hmany.many_append (.both (.oneOf hk) hi))

theorem SignsSpell.derives {ss : List Bool} (h : SignsSpell ss ws) :
    Derives (.many (.oneOf [.plus, .minus])) (kinds ws) := by
  induction ss generalizing ws with
  | nil =>
    cases h
    exact .none
  | cons minus ss ih =>
    obtain ⟨w, us, rfl, hw, hus⟩ := h
    have hmem : w.kind ∈ [Kind.plus, .minus] := by
      rw [hw]
      cases minus <;> decide
    exact .more (.oneOf hmem) (ih hus)

mutual

theorem Expr.derives {e : Expr} {ws : List Word} (h : e.Spells ws) :
    Derives (.phrase .expression) (kinds ws) := by
  match e with
  | .term t =>
    have ht := Term.derives (t := t) h
    simpa using Derives.phrase (c := .expression) (.both ht .none)
  | .sum l op r =>
    obtain ⟨us, w, vs, rfl, hl, hop, hr⟩ := h
    rw [kinds_append]
    exact (Expr.derives hl).chain rfl (mem_of_sumOp? hop) (Term.derives hr)

theorem Term.derives {t : Term} {ws : List Word} (h : t.Spells ws) :
    Derives (.phrase .term) (kinds ws) := by
  match t with
  | .factor f =>
    have hf := Factor.derives (f := f) h
    simpa using Derives.phrase (c := .term) (.both hf .none)
  | .product l op r =>
    obtain ⟨us, w, vs, rfl, hl, hop, hr⟩ := h
    rw [kinds_append]
    exact (Term.derives hl).chain rfl (mem_of_productOp? hop) (Factor.derives hr)

theorem Factor.derives {f : Factor} {ws : List Word} (h : f.Spells ws) :
    Derives (.phrase .factor) (kinds ws) := by
  match f with
  | .mk ord ss body =>
    obtain ⟨us, vs, rfl, hss, hbody, -⟩ := h
    obtain ⟨xs, ys, rfl, hp, hcasts⟩ := Casted.derives hbody
    rw [kinds_append, kinds_append]
    exact .phrase (.both hss.derives (.both hp hcasts))

/-- A primary stands before the casts. -/
theorem Casted.derives {c : Casted} {ws : List Word} (h : c.Spells ws) :
    ∃ us vs, ws = us ++ vs ∧ Derives (.phrase .primary) (kinds us) ∧
      Derives (.many (.row [.token .asKw, .oneOf [.intKw, .doubleKw]])) (kinds vs) := by
  match c with
  | .primary p => exact ⟨ws, [], (List.append_nil ws).symm, Primary.derives (p := p) h, .none⟩
  | .cast body ord target =>
    obtain ⟨xs, w, v, rfl, hbody, hw, -, hv⟩ := h
    obtain ⟨us, vs, rfl, hp, hcasts⟩ := Casted.derives hbody
    refine ⟨us, vs ++ [w, v], List.append_assoc us vs [w, v], hp, ?_⟩
    rw [kinds_append]
    refine hcasts.many_append ?_
    rw [kinds_cons, hw]
    exact .row_token .asKw (.oneOf (mem_of_variableType? hv))
  | .untyped _ _ _ => exact h.elim

theorem Primary.derives {p : Primary} {ws : List Word} (h : p.Spells ws) :
    Derives (.phrase .primary) (kinds ws) := by
  match p with
  | .name x =>
    obtain ⟨w, rfl, hw, -⟩ := h
    rw [kinds_cons, hw]
    exact .phrase (.left (.token .ident))
  | .call f as =>
    obtain ⟨w, l, us, rfl, ⟨hw, -⟩, hl, has⟩ := h
    obtain ⟨vs, r, rfl, hr, hargs⟩ := Args.derives has
    rw [kinds_cons, kinds_cons, kinds_append, kinds_cons, hw, hl, hr]
    exact .phrase (.right (.left (.row_token _ (.row_token _ (.both hargs (.token .rParen))))))
  | .int value ord =>
    obtain ⟨w, n, rfl, hw, -⟩ := h
    refine .phrase (.right (.right (.left (.phrase (.oneOf ?_)))))
    rcases hw with hw | hw <;> rw [hw] <;> decide
  | .double bits ord =>
    obtain ⟨w, rfl, hw, -⟩ := h
    refine .phrase (.right (.right (.left (.phrase (.oneOf ?_)))))
    rw [hw]
    decide
  | .text s ord =>
    obtain ⟨w, rfl, hw, -⟩ := h
    refine .phrase (.right (.right (.left (.phrase (.oneOf ?_)))))
    rw [hw]
    decide
  | .paren ord inner close =>
    obtain ⟨w, us, r, rfl, hw, -, hinner, hr, -⟩ := h
    rw [List.cons_append, kinds_cons, kinds_append, kinds_cons, hw, hr]
    exact .phrase (.right (.right (.right (.row_token _ (.both (Relational.derives hinner)
      (.token .rParen))))))
  | .gap g => exact h.elim

theorem Relational.derives {r : Relational} {ws : List Word} (h : r.Spells ws) :
    Derives (.phrase .relational) (kinds ws) := by
  match r with
  | .value e =>
    have he := Expr.derives (e := e) h
    simpa using Derives.phrase (c := .relational) (.both he .absent)
  | .compare l op r =>
    obtain ⟨us, w, vs, rfl, hl, hop, hr⟩ := h
    rw [kinds_append, kinds_cons]
    exact .phrase (.both (Expr.derives hl)
      (.some (.both (.phrase (c := .relop) (.oneOf (mem_of_relOp? hop))) (Expr.derives hr))))

/-- The arguments stand before the parenthesis. -/
theorem Args.derives {as : Args} {isFirst : Bool} {ws : List Word} (h : as.Spells isFirst ws) :
    ∃ us, ∃ r : Word, ws = us ++ [r] ∧ r.kind = .rParen ∧
      Derives (if isFirst then (Rule.phrase .args).maybe
        else .many (.row [.token .comma, .phrase .expression])) (kinds us) := by
  match as with
  | .done ord =>
    obtain ⟨w, rfl, hw, -⟩ := h
    refine ⟨[], w, rfl, hw, ?_⟩
    cases isFirst with
    | true => exact .absent
    | false => exact .none
  | .more e rest =>
    obtain ⟨cs, us, vs, rfl, hcs, he, hrest⟩ := h
    obtain ⟨xs, r, rfl, hr, hxs⟩ := Args.derives hrest
    refine ⟨cs ++ us ++ xs, r, by simp, hr, ?_⟩
    cases isFirst with
    | true =>
      cases hcs
      rw [List.nil_append, kinds_append]
      exact .some (.phrase (.both (Expr.derives he) hxs))
    | false =>
      obtain ⟨c, rfl, hc⟩ := hcs
      rw [kinds_append, List.singleton_append, kinds_cons, hc]
      exact .more (.row_token _ (Expr.derives he)) hxs
  | .gap g => exact h.elim

end

theorem InitSpells.derives {init : Option Expr} (h : InitSpells init ws) :
    Derives (Rule.row [.token .assign, .phrase .expression]).maybe (kinds ws) := by
  cases init with
  | none =>
    cases h
    exact .absent
  | some e =>
    obtain ⟨w, us, rfl, hw, he⟩ := h
    rw [kinds_cons, hw]
    exact .some (.row_token _ (Expr.derives he))

theorem Decl.derives {d : Decl} (h : d.Spells ws) : Derives (.phrase .declaration) (kinds ws) := by
  cases d with
  | mk constant x type init close =>
    obtain ⟨w, n, c, t, us, e, rfl, hw, ⟨hn, -⟩, hc, ht, hinit, he, -⟩ := h
    have hmem : w.kind ∈ [Kind.letKw, .constKw] := by
      rw [hw]
      cases constant <;> decide
    simp only [List.cons_append, kinds_cons, kinds_append, kinds_nil, hn, hc, he]
    exact .phrase (.both (.oneOf hmem) (.row_token _ (.row_token _
      (.both (.phrase (c := .type) (.oneOf (mem_of_variableType? ht)))
        (.both hinit.derives (.token .semicolon))))))
  | gap g => exact h.elim

theorem ValueSpells.derives {value : Option Expr} (h : ValueSpells value ws) :
    Derives (Rule.phrase .expression).maybe (kinds ws) := by
  cases value with
  | none =>
    cases h
    exact .absent
  | some e => exact .some (Expr.derives (e := e) h)

/-- The test of a condition is an expression or comparison. -/
theorem Relational.derives_condition {r : Relational} (h : r.Spells ws) :
    Derives (.phrase .condition) (kinds ws) := by
  cases Relational.derives h with
  | phrase h => exact .phrase h

mutual

theorem Stmt.derives {s : Stmt} {ws : List Word} (h : s.Spells ws) :
    Derives (.phrase .statement) (kinds ws) := by
  match s with
  | .empty =>
    obtain ⟨w, rfl, hw⟩ := h
    rw [kinds_cons, hw]
    exact .phrase (.right (.right (.right (.right (.right (.left (.token .semicolon)))))))
  | .declare d =>
    exact .phrase (.right (.right (.right (.right (.right (.right (.right
      (Decl.derives (d := d) h))))))))
  | .branch i =>
    obtain ⟨w, us, rfl, hw, hi⟩ := h
    rw [kinds_cons, hw]
    exact .phrase (.left (If.derives hi))
  | .loop ord cond body =>
    obtain ⟨w, us, vs, rfl, hw, -, hcond, hbody⟩ := h
    rw [List.cons_append, kinds_cons, kinds_append, hw]
    exact .phrase (.right (.left (.phrase (c := .whileStatement) (.row_token _
      (.both (Relational.derives_condition hcond) (Block.derives hbody))))))
  | .ret ord value close =>
    obtain ⟨w, us, e, rfl, hw, -, hvalue, he, -⟩ := h
    rw [List.cons_append, kinds_cons, kinds_append, kinds_cons, hw, he]
    exact .phrase (.right (.right (.left (.phrase (c := .returnStatement) (.row_token _
      (.both hvalue.derives (.token .semicolon)))))))
  | .brk ord close =>
    obtain ⟨w, e, rfl, hw, -, he, -⟩ := h
    rw [kinds_cons, kinds_cons, hw, he]
    exact .phrase (.right (.right (.right (.left (.phrase (c := .breakStatement)
      (.row_token _ (.token .semicolon)))))))
  | .cont ord close =>
    obtain ⟨w, e, rfl, hw, -, he, -⟩ := h
    rw [kinds_cons, kinds_cons, hw, he]
    exact .phrase (.right (.right (.right (.right (.left (.phrase (c := .continueStatement)
      (.row_token _ (.token .semicolon))))))))
  | .call f as close =>
    obtain ⟨w, l, us, e, rfl, ⟨hw, -⟩, hl, has, he, -⟩ := h
    obtain ⟨vs, r, rfl, hr, hargs⟩ := Args.derives has
    have hcall : Derives (.row [.token .lParen, (Rule.phrase .args).maybe, .token .rParen])
        (.lParen :: (kinds vs ++ [.rParen])) :=
      .row_token _ (.both hargs (.token .rParen))
    simp only [List.cons_append, kinds_cons, kinds_append, kinds_nil, hw, hl, hr, he]
    exact .phrase (.right (.right (.right (.right (.right (.right (.left
      (.phrase (c := .identStatement) (.row_token _
        (.both (.left hcall) (.token .semicolon)))))))))))
  | .assign x a close =>
    obtain ⟨w, l, us, e, rfl, ⟨hw, -⟩, hl, ha, he, -⟩ := h
    have hassign : Derives (.row [.token .assign, .phrase .expression]) (.assign :: kinds us) :=
      .row_token _ (Expr.derives ha)
    simp only [List.cons_append, kinds_cons, kinds_append, kinds_nil, hw, hl, he]
    exact .phrase (.right (.right (.right (.right (.right (.right (.left
      (.phrase (c := .identStatement) (.row_token _
        (.both (.right hassign) (.token .semicolon)))))))))))
  | .unfinished _ _ => exact h.elim
  | .gap _ => exact h.elim

theorem If.derives {i : If} {ws : List Word} (h : i.Spells ws) :
    Derives (.phrase .ifStatement) (.ifKw :: kinds ws) := by
  match i with
  | .mk cond body alternative =>
    obtain ⟨us, vs, xs, rfl, hcond, hbody, halt⟩ := h
    rw [kinds_append, kinds_append]
    exact .phrase (.row_token _ (.both (Relational.derives_condition hcond)
      (.both (Block.derives hbody) (Else.derives halt))))

theorem Else.derives {a : Else} {ws : List Word} (h : a.Spells ws) :
    Derives (Rule.row [.token .elseKw, .either (.phrase .block) (.phrase .ifStatement)]).maybe
      (kinds ws) := by
  match a with
  | .none =>
    cases h
    exact .absent
  | .block b =>
    obtain ⟨w, us, rfl, hw, hb⟩ := h
    rw [kinds_cons, hw]
    exact .some (.row_token _ (.left (Block.derives hb)))
  | .branch i =>
    obtain ⟨w, v, us, rfl, hw, hv, hi⟩ := h
    rw [kinds_cons, kinds_cons, hw, hv]
    exact .some (.row_token _ (.right (If.derives hi)))
  | .gap _ => exact h.elim

theorem Block.derives {b : Block} {ws : List Word} (h : b.Spells ws) :
    Derives (.phrase .block) (kinds ws) := by
  match b with
  | .stmts ss =>
    obtain ⟨w, us, rfl, hw, hss⟩ := h
    obtain ⟨vs, r, rfl, hr, hmany⟩ := Stmts.derives hss
    rw [kinds_cons, kinds_append, kinds_cons, hw, hr]
    exact .phrase (.row_token _ (.both hmany (.token .rBrace)))
  | .gap _ => exact h.elim

/-- The statements stand before the brace. -/
theorem Stmts.derives {ss : Stmts} {ws : List Word} (h : ss.Spells ws) :
    ∃ us, ∃ r : Word, ws = us ++ [r] ∧ r.kind = .rBrace ∧
      Derives (.many (.phrase .statement)) (kinds us) := by
  match ss with
  | .done ord =>
    obtain ⟨w, rfl, hw, -⟩ := h
    exact ⟨[], w, rfl, hw, .none⟩
  | .more s rest =>
    obtain ⟨us, vs, rfl, hs, hrest⟩ := h
    obtain ⟨xs, r, rfl, hr, hxs⟩ := Stmts.derives hrest
    refine ⟨us ++ xs, r, by simp, hr, ?_⟩
    rw [kinds_append]
    exact .more (Stmt.derives hs) hxs

end

theorem Param.derives {p : Param} (h : p.Spells ws) : Derives (.phrase .param) (kinds ws) := by
  obtain ⟨us, n, c, t, rfl, hus, ⟨hn, -⟩, hc, ht⟩ := h
  have hconst : Derives (Rule.token .constKw).maybe (kinds us) := by
    split at hus
    · obtain ⟨w, rfl, hw⟩ := hus
      rw [kinds_cons, hw]
      exact .some (.token .constKw)
    · subst hus
      exact .absent
  simp only [kinds_append, kinds_cons, kinds_nil, hn, hc]
  exact .phrase (.both hconst (.row_token _ (.row_token _
    (.phrase (c := .type) (.oneOf (mem_of_variableType? ht))))))

/-- Parameters stand behind each other, a comma before each but the first. -/
theorem ParamsSpell.derives {ps : List Param} (h : ParamsSpell ps ws) :
    Derives (.phrase .params) (kinds ws) := by
  have hcut : ∃ ks ls, kinds ws = ks ++ ls ∧ Derives (.phrase .param) ks ∧
      Derives (.many (.row [.token .comma, .phrase .param])) ls := by
    induction ps generalizing ws with
    | nil => exact h.elim
    | cons p ps ih =>
      cases ps with
      | nil => exact ⟨kinds ws, [], (List.append_nil _).symm, Param.derives (p := p) h, .none⟩
      | cons q ps =>
        obtain ⟨us, c, vs, rfl, hp, hc, hps⟩ := h
        obtain ⟨ks, ls, hvs, hq, hmany⟩ := ih hps
        refine ⟨kinds us, .comma :: ks ++ ls, ?_, Param.derives hp, .more (.row_token _ hq) hmany⟩
        rw [kinds_append, kinds_cons, hc, hvs, List.cons_append]
  obtain ⟨ks, ls, heq, hp, hmany⟩ := hcut
  rw [heq]
  exact .phrase (.both hp hmany)

theorem Fn.derives {f : Fn} (h : f.Spells ws) : Derives (.phrase .function) (kinds ws) := by
  cases f with
  | mk name ps rest =>
    obtain g | ⟨type, body⟩ := rest
    · exact h.elim
    · obtain ⟨w, n, l, us, r, a, t, vs, rfl, hw, ⟨hn, -⟩, hl, hps, hr, ha, ht, hbody⟩ := h
      have hparams : Derives (Rule.phrase .params).maybe (kinds us) := by
        rcases hps with ⟨-, rfl⟩ | hps
        · exact .absent
        · exact .some hps.derives
      simp only [List.cons_append, kinds_append, kinds_cons, hw, hn, hl, hr, ha]
      exact .phrase (.row_token _ (.row_token _ (.row_token _ (.both hparams (.row_token _
        (.row_token _ (.both (.oneOf (mem_of_resultType? ht)) (Block.derives hbody))))))))
  | gap g => exact h.elim

theorem RowSpells.derives {α : Type} {S : α → List Word → Prop} {c : Category}
    (hS : ∀ a ws, S a ws → Derives (.phrase c) (kinds ws)) {as : List α} (h : RowSpells S as ws) :
    Derives (.many (.phrase c)) (kinds ws) := by
  induction as generalizing ws with
  | nil =>
    cases h
    exact .none
  | cons a as ih =>
    obtain ⟨us, vs, rfl, ha, has⟩ := h
    rw [kinds_append]
    exact .more (hS a us ha) (ih has)

/-- The tokens that a program spells can be derived from the grammar. -/
theorem Program.derives {p : Program} (h : p.Spells ws) :
    Derives (.phrase .program) (kinds ws) := by
  obtain ⟨us, vs, w, rfl, hds, hfs, hw, -⟩ := h
  rw [kinds_append, kinds_append, kinds_cons, hw]
  exact .phrase (.both (hds.derives fun _ _ => Decl.derives)
    (.both (hfs.derives fun _ _ => Fn.derives) (.token .eof)))

end TinyC.Syntax
