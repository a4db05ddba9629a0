import TinyC.Proofs.Syntax.Plain
import TinyC.Proofs.Syntax.Spelling
import TinyC.Proofs.Syntax.Whole

/-!
# How far the parser looks

A row of tokens ends with the end of the program or with a stretch that is no token. The parser
takes neither of them off the row, so it never gets to see what stands behind the row, and every
number of a token in a tree is that of a token of the row, as are the numbers of the tokens next to
it that a walk through the tree looks at. What it finds spells the tokens up to the rest, or has a
gap; so a tree without a gap spells the tokens it was found for (`Program.spells_ofWords`).

All this is shown at once, by comparing what is found in a row with what is found where more tokens
stand behind it (`Agrees`). The two have budgets of their own, of which neither is used up: each
turn of the loops over statements, arguments, parameters and operators takes a token off the row or
ends in a gap, and the last token of a row is never taken. So every gap tells what could have stood
there, and the trees of a row have all that is known of trees of the grammar
(`Program.ofWords_row`).
-/

namespace TinyC.Syntax

variable {k : Kind}

/-! ## Trees of a row -/

/-- The token that closes a phrase is followed by another one of `n`. -/
def Close.Within (n : Nat) : Close → Prop
  | .word ord => ord + 1 < n
  | .gap g => g.ord < n

mutual

/-- The tokens of a sum come before the last of `n`, and its gaps not behind it. -/
def Expr.Within (n : Nat) : Expr → Prop
  | .term t => t.Within n
  | .sum l _ r => l.Within n ∧ r.Within n

def Term.Within (n : Nat) : Term → Prop
  | .factor f => f.Within n
  | .product l _ r => l.Within n ∧ r.Within n

def Factor.Within (n : Nat) : Factor → Prop
  | .mk ord _ body => ord < n ∧ body.Within n

def Casted.Within (n : Nat) : Casted → Prop
  | .primary p => p.Within n
  | .cast body ord _ => body.Within n ∧ ord + 2 < n
  | .untyped body ord g => body.Within n ∧ ord + 1 < n ∧ g.ord < n

def Primary.Within (n : Nat) : Primary → Prop
  | .name x => x.ord + 1 < n
  | .call f as => f.ord + 1 < n ∧ as.Within n
  | .int _ ord => ord + 1 < n
  | .double _ ord => ord + 1 < n
  | .text _ ord => ord + 1 < n
  | .paren ord inner close => ord + 1 < n ∧ inner.Within n ∧ close.Within n
  | .gap g => g.ord < n

def Relational.Within (n : Nat) : Relational → Prop
  | .value e => e.Within n
  | .compare l _ r => l.Within n ∧ r.Within n

def Args.Within (n : Nat) : Args → Prop
  | .done ord => ord + 1 < n
  | .more e rest => e.Within n ∧ rest.Within n
  | .gap g => g.ord < n

end

/-- So do the tokens of a value, if there is one. -/
def ValueWithin (n : Nat) (value : Option Expr) : Prop :=
  ∀ e, value = some e → e.Within n

/-- The tokens of a declaration come before the last of `n`, and its gaps not behind it. -/
def Decl.Within (n : Nat) : Decl → Prop
  | .mk _ x _ init close => x.ord + 3 < n ∧ ValueWithin n init ∧ close.Within n
  | .gap g => g.ord < n

mutual

/-- The tokens of a statement come before the last of `n`, and its gaps not behind it. -/
def Stmt.Within (n : Nat) : Stmt → Prop
  | .empty => True
  | .declare d => d.Within n
  | .branch i => i.Within n
  | .loop ord cond body => ord + 1 < n ∧ cond.Within n ∧ body.Within n
  | .ret ord value close => ord + 1 < n ∧ ValueWithin n value ∧ close.Within n
  | .brk ord close => ord + 1 < n ∧ close.Within n
  | .cont ord close => ord + 1 < n ∧ close.Within n
  | .call f as close => f.ord + 1 < n ∧ as.Within n ∧ close.Within n
  | .assign x e close => x.ord + 1 < n ∧ e.Within n ∧ close.Within n
  | .unfinished x g => x.ord + 1 < n ∧ g.ord < n
  | .gap g => g.ord < n

def If.Within (n : Nat) : If → Prop
  | .mk cond body alternative => cond.Within n ∧ body.Within n ∧ alternative.Within n

def Else.Within (n : Nat) : Else → Prop
  | .none => True
  | .block b => b.Within n
  | .branch i => i.Within n
  | .gap g => g.ord < n

def Block.Within (n : Nat) : Block → Prop
  | .stmts ss => ss.Within n
  | .gap g => g.ord < n

def Stmts.Within (n : Nat) : Stmts → Prop
  | .done ord => ord + 1 < n
  | .more s rest => s.Within n ∧ rest.Within n

end

/-- The tokens of the body of a function come before the last of `n`, and its gaps not behind it. -/
def BodyWithin (n : Nat) : Except Gap (Ty × Block) → Prop
  | .ok (_, body) => body.Within n
  | .error g => g.ord < n

/-- The tokens of a function come before the last of `n`, and its gaps not behind it. -/
def Fn.Within (n : Nat) : Fn → Prop
  | .mk x ps rest => x.ord + 1 < n ∧ (∀ p ∈ ps, p.x.ord + 3 < n) ∧ BodyWithin n rest
  | .gap g => g.ord < n

/-- The end of a program is among `n` tokens, and it may be the last of them. -/
def Close.EndsWithin (n : Nat) : Close → Prop
  | .word ord => ord < n
  | .gap g => g.ord < n

theorem Close.Within.ends {n : Nat} {c : Close} (h : c.Within n) : c.EndsWithin n := by
  cases c with
  | word ord => exact Nat.lt_of_succ_lt h
  | gap g => exact h

/-- The tokens of a program come before the last of `n`, and its gaps not behind it. -/
structure Program.Within (n : Nat) (p : Program) : Prop where
  decls : ∀ d ∈ p.decls, d.Within n
  functions : ∀ f ∈ p.functions, f.Within n
  close : p.close.EndsWithin n

/-- What is known of the trees of a row: they are made of its tokens and plain. -/
structure OfRow {α : Type} (W P : α → Prop) (a : α) : Prop where
  within : W a
  plain : P a

abbrev Expr.Tidy (n : Nat) := OfRow (Expr.Within n) Expr.Plain

abbrev Term.Tidy (n : Nat) := OfRow (Term.Within n) Term.Plain

abbrev Factor.Tidy (n : Nat) := OfRow (Factor.Within n) Factor.Plain

abbrev Casted.Tidy (n : Nat) := OfRow (Casted.Within n) Casted.Plain

abbrev Primary.Tidy (n : Nat) := OfRow (Primary.Within n) Primary.Plain

abbrev Relational.Tidy (n : Nat) := OfRow (Relational.Within n) Relational.Plain

abbrev Args.Tidy (n : Nat) := OfRow (Args.Within n) Args.Plain

abbrev ValueTidy (n : Nat) := OfRow (ValueWithin n) ValuePlain

abbrev Decl.Tidy (n : Nat) := OfRow (Decl.Within n) Decl.Plain

abbrev Stmt.Tidy (n : Nat) := OfRow (Stmt.Within n) Stmt.Plain

abbrev If.Tidy (n : Nat) := OfRow (If.Within n) If.Plain

abbrev Else.Tidy (n : Nat) := OfRow (Else.Within n) Else.Plain

abbrev Block.Tidy (n : Nat) := OfRow (Block.Within n) Block.Plain

abbrev Stmts.Tidy (n : Nat) := OfRow (Stmts.Within n) Stmts.Plain

abbrev BodyTidy (n : Nat) := OfRow (BodyWithin n) BodyPlain

abbrev Fn.Tidy (n : Nat) := OfRow (Fn.Within n) Fn.Plain

/-- The end of a phrase of a row stands where it is looked for, at the number `q`, or tells what
could have stood there. -/
structure Close.Tidy (n q : Nat) (c : Close) : Prop where
  within : c.Within n
  definite : c.Definite
  behind : ∀ ord < q, c.Behind ord

section

variable {n : Nat}

theorem Args.Within.stop_lt {as : Args} (h : as.Within n) : as.stop < n := by
  match as with
  | .done ord => exact h
  | .more e rest =>
    show rest.stop < n
    exact Args.Within.stop_lt h.2
  | .gap g => exact h

theorem Primary.Within.stop_lt {p : Primary} (h : p.Within n) : p.stop < n := by
  cases p with
  | call f as => exact Args.Within.stop_lt h.2
  | paren ord inner close =>
    cases close with
    | word ord => exact h.2.2
    | gap g => exact h.2.2
  | name _ | int _ _ | double _ _ | text _ _ | gap _ => exact h

theorem Term.Within.start_lt {t : Term} (h : t.Within n) : t.start < n := by
  match t with
  | .factor (.mk ord _ _) => exact h.1
  | .product l _ _ => exact Term.Within.start_lt (t := l) h.1

theorem Expr.Within.start_lt {e : Expr} (h : e.Within n) : e.start < n := by
  match e with
  | .term t => exact Term.Within.start_lt (t := t) h
  | .sum l _ _ => exact Expr.Within.start_lt (e := l) h.1

theorem Relational.Within.start_lt {r : Relational} (h : r.Within n) : r.start < n := by
  cases r with
  | value e => exact Expr.Within.start_lt h
  | compare l op r => exact Expr.Within.start_lt h.1

theorem Stmts.Within.stop_lt {ss : Stmts} (h : ss.Within n) : ss.stop < n := by
  match ss with
  | .done ord => exact h
  | .more s rest =>
    show rest.stop < n
    exact Stmts.Within.stop_lt h.2

theorem Block.Within.stop_lt {b : Block} (h : b.Within n) : b.stop < n := by
  cases b with
  | stmts ss => exact Stmts.Within.stop_lt h
  | gap g => exact h

end

/-! ## Rows of tokens -/

/-- Tokens of the kind stand at the end of a row. -/
def EndsRow (k : Kind) : Prop :=
  k = .eof ∨ k = .invalid

instance (k : Kind) : Decidable (EndsRow k) :=
  inferInstanceAs (Decidable (_ ∨ _))

/-- The tokens are numbered in order, up to the last of `n`, behind which nothing is read, and the
identifiers among them have names. -/
def Row (n : Nat) : List Word → Prop
  | [] => False
  | [w] => w.ord + 1 = n ∧ EndsRow w.kind
  | w :: v :: ws => v.ord = w.ord + 1 ∧ (w.kind = .ident → nameText w.value ≠ "") ∧ Row n (v :: ws)

namespace Row

variable {n : Nat} {ws : List Word}

theorem ordOf_lt (h : Row n ws) : ordOf ws < n := by
  induction ws with
  | nil => exact h.elim
  | cons w ws ih =>
    cases ws with
    | nil => exact Nat.le_of_eq h.1
    | cons v ws =>
      have hlt := ih h.2.2
      have hord := h.1
      simp only [ordOf] at hlt ⊢
      omega

/-- A token that does not end the row is followed by another of its tokens. -/
theorem behind {w : Word} {k : Kind} (h : Row n (w :: ws)) (hkind : w.kind = k)
    (hk : ¬EndsRow k := by decide) : Row n ws ∧ ordOf ws = w.ord + 1 ∧ w.ord + 1 < n := by
  match ws with
  | [] => exact absurd (hkind ▸ h.2) hk
  | v :: ws =>
    have hlt : v.ord < n := h.2.2.ordOf_lt
    have hord : v.ord = w.ord + 1 := h.1
    exact ⟨h.2.2, hord, hord ▸ hlt⟩

/-- So a token of a kind that does not end the row can be taken off it. -/
theorem taken {k : Kind} (h : Row n ws) (hkind : kindOf ws = k) (hk : ¬EndsRow k := by decide) :
    ∃ w vs, ws = w :: vs ∧ w.kind = k ∧ Row n vs ∧ ordOf vs = w.ord + 1 ∧ w.ord + 1 < n ∧
      vs.length + 1 = ws.length := by
  match ws with
  | w :: vs =>
    obtain ⟨hrow, hord, hlt⟩ := h.behind hkind hk
    exact ⟨w, vs, rfl, hkind, hrow, hord, hlt, rfl⟩

theorem name {w : Word} (h : Row n (w :: ws)) (hkind : w.kind = .ident) :
    nameText w.value ≠ "" := by
  match ws with
  | [] =>
    have hends := h.2
    rw [hkind] at hends
    exact absurd hends (by decide)
  | v :: ws => exact h.2.1 hkind

theorem exists_cons (h : Row n ws) : ∃ w vs, ws = w :: vs := by
  match ws with
  | w :: vs => exact ⟨w, vs, rfl⟩

theorem length_pos (h : Row n ws) : 0 < ws.length := by
  match ws with
  | w :: vs => exact Nat.succ_pos _

theorem kindOf_append (h : Row n ws) (vs : List Word) : kindOf (ws ++ vs) = kindOf ws := by
  match ws with
  | w :: ws => rfl

theorem ordOf_append (h : Row n ws) (vs : List Word) : ordOf (ws ++ vs) = ordOf ws := by
  match ws with
  | w :: ws => rfl

theorem tail_append (h : Row n ws) (vs : List Word) : (ws ++ vs).tail = ws.tail ++ vs := by
  match ws with
  | w :: ws => rfl

theorem gapAt_append (h : Row n ws) (want : List Kind) (vs : List Word) :
    gapAt want (ws ++ vs) = gapAt want ws := by
  rw [gapAt, gapAt, h.ordOf_append]

end Row

/-- What stands for something in the grammar does not end a row. -/
theorem not_endsRow {α : Type} {f : Kind → Option α} {a : α} (h : f k = some a)
    (heof : f .eof = none := by rfl) (hinvalid : f .invalid = none := by rfl) : ¬EndsRow k := by
  rintro (rfl | rfl)
  · cases heof.symm.trans h
  · cases hinvalid.symm.trans h

/-! ## Phrases in a row, and in a longer one -/

/-- What was found at the front of the row `ws` and what was found with `z` behind the row agree:
they are the same tree, with tokens of the row. It has a gap, or it spells tokens at the front of
the row, and then the same tokens of the row are left. -/
inductive Agrees {α : Type} (P W : α → Prop) (S : α → List Word → Prop) (n : Nat)
    (ws z : List Word) : Parsed α → Parsed α → Prop where
  | gap {a : α} (h : P a) (hgap : ¬W a) : Agrees P W S n ws z (a, none) (a, none)
  | found {a : α} {u v : List Word} (h : P a) (hwhole : W a) (hspells : S a u) (hrow : Row n v)
      (hws : ws = u ++ v) : Agrees P W S n ws z (a, some v) (a, some (v ++ z))

section

variable {α β : Type} {P W : α → Prop} {S : α → List Word → Prop} {Q V : β → Prop}
  {T : β → List Word → Prop} {n : Nat} {u ws ws' z : List Word} {r r' : Parsed α}

/-- What is done with both phrases is done with a gap, or with a phrase and what is left. -/
@[elab_as_elim]
theorem Agrees.elim {C : Parsed α → Parsed α → Prop} (h : Agrees P W S n ws z r r')
    (hgap : ∀ a, P a → ¬W a → C (a, none) (a, none))
    (hfound : ∀ a u v, P a → W a → S a u → Row n v → ws = u ++ v → C (a, some v) (a, some (v ++ z)))
    : C r r' := by
  cases h with
  | gap h hgap' => exact hgap _ h hgap'
  | found h hwhole hspells hrow hws => exact hfound _ _ _ h hwhole hspells hrow hws

theorem Agrees.ite {p : Prop} [Decidable p] {q q' : Parsed α} (h : p → Agrees P W S n ws z r r')
    (h' : ¬p → Agrees P W S n ws z q q') :
    Agrees P W S n ws z (if p then r else q) (if p then r' else q') := by
  by_cases hp : p
  · rw [if_pos hp, if_pos hp]
    exact h hp
  · rw [if_neg hp, if_neg hp]
    exact h' hp

theorem Agrees.unless {p : Prop} [Decidable p] {q q' : Parsed α}
    (h : ¬p → Agrees P W S n ws z r r') (h' : p → Agrees P W S n ws z q q') :
    Agrees P W S n ws z (if ¬p then r else q) (if ¬p then r' else q') :=
  .ite h fun hp => h' (Decidable.not_not.mp hp)

/-- A phrase behind tokens that have been taken. -/
theorem Agrees.map (h : Agrees P W S n ws z r r') (g : α → β) (hg : ∀ a, P a → Q (g a))
    (hV : ∀ a, V (g a) ↔ W a) (hT : ∀ a v, S a v → T (g a) (u ++ v)) (hws : ws' = u ++ ws) :
    Agrees Q V T n ws' z (g r.1, r.2) (g r'.1, r'.2) := by
  cases h with
  | gap h hgap => exact .gap (hg _ h) (mt (hV _).1 hgap)
  | found h hwhole hspells hrow hv =>
    refine .found (hg _ h) ((hV _).2 hwhole) (hT _ _ hspells) hrow ?_
    rw [hws, hv, List.append_assoc]

/-- A phrase whose first tokens have been taken. -/
theorem Agrees.after {T : α → List Word → Prop} (h : Agrees P W S n ws z r r')
    (hT : ∀ a v, S a v → T a (u ++ v)) (hws : ws' = u ++ ws) : Agrees P W T n ws' z r r' :=
  h.map id (fun _ => id) (fun _ => Iff.rfl) hT hws

theorem definite_gapAt {k : Kind} {ks : List Kind} {ws : List Word} :
    (gapAt (k :: ks) ws).Definite :=
  List.cons_ne_nil k ks

/-- A phrase that is complete with the token behind it. -/
theorem agrees_closing {k : Kind} (hk : ¬EndsRow k) (h : Row n ws) (g : Close → β)
    (hg : ∀ c : Close, c.Tidy n (ordOf ws) → Q (g c)) (hV : ∀ c, V (g c) ↔ c.Whole)
    (hT : ∀ c e, c.Spells k e → T (g c) (u ++ [e])) (hws : ws' = u ++ ws) :
    Agrees Q V T n ws' z (g (closing k ws).1, (closing k ws).2)
      (g (closing k (ws ++ z)).1, (closing k (ws ++ z)).2) := by
  unfold closing
  rw [h.kindOf_append, h.ordOf_append, h.gapAt_append, h.tail_append]
  by_cases hkind : kindOf ws = k
  · rw [if_pos hkind, if_pos hkind]
    obtain ⟨e, vs, rfl, he, hvs, -, hlt, -⟩ := h.taken hkind hk
    exact .found (hg _ ⟨hlt, trivial, fun _ => id⟩) ((hV _).2 trivial) (hT _ e ⟨he, rfl⟩) hvs
      (by rw [hws, List.append_assoc]; rfl)
  · rw [if_neg hkind, if_neg hkind]
    exact .gap (hg _ ⟨h.ordOf_lt, definite_gapAt, fun _ _ => trivial⟩) (mt (hV _).1 id)

theorem signs_append (h : Row n ws) :
    ∃ us, ws = us ++ (signs ws).2 ∧ SignsSpell (signs ws).1 us ∧ Row n (signs ws).2 ∧
      signs (ws ++ z) = ((signs ws).1, (signs ws).2 ++ z) := by
  induction ws with
  | nil => exact h.elim
  | cons w ws ih =>
    rw [List.cons_append]
    unfold signs
    split
    · rename_i hkind
      obtain ⟨us, hus, hss, hrow, heq⟩ := ih (h.behind hkind).1
      exact ⟨w :: us, congrArg (w :: ·) hus, ⟨w, us, rfl, hkind, hss⟩, hrow, by rw [heq]⟩
    · rename_i hkind
      obtain ⟨us, hus, hss, hrow, heq⟩ := ih (h.behind hkind).1
      exact ⟨w :: us, congrArg (w :: ·) hus, ⟨w, us, rfl, hkind, hss⟩, hrow, by rw [heq]⟩
    · exact ⟨[], rfl, rfl, h, rfl⟩

end

/-- The number of the first token does not depend on what stands behind. -/
theorem ordOf_append {us : List Word} (h : us ≠ []) (vs : List Word) :
    ordOf (us ++ vs) = ordOf us := by
  cases us with
  | nil => exact absurd rfl h
  | cons w us => rfl

/-- There is no primary without tokens. -/
theorem Primary.ne_nil {p : Primary} {ws : List Word} (h : p.Spells ws) : ws ≠ [] := by
  cases p with
  | gap g => exact h.elim
  | paren ord inner close =>
    obtain ⟨w, us, r, rfl, -⟩ := h
    exact nofun
  | call f as =>
    obtain ⟨w, l, us, rfl, -⟩ := h
    exact nofun
  | int value ord =>
    obtain ⟨w, n, rfl, -⟩ := h
    exact nofun
  | name x | double bits ord | text s ord =>
    obtain ⟨w, rfl, -⟩ := h
    exact nofun

/-! ## Expressions -/

section

set_option linter.unusedSectionVars false

variable {n : Nat} {z ws : List Word} {w : Word} {k m : Nat}

theorem agrees_castRest {c : Casted} {us ws : List Word} (hc : c.Tidy n) (hwhole : c.Whole)
    (hus : c.Spells us) (h : Row n ws) (hk : ws.length < min k m) :
    Agrees (Casted.Tidy n) Casted.Whole (fun c v => c.Spells (us ++ v)) n ws z (castRest k c ws)
      (castRest m c (ws ++ z)) := by
  induction k generalizing m c us ws with
  | zero => omega
  | succ k ih =>
    obtain ⟨m, rfl⟩ : ∃ j, m = j + 1 := ⟨m - 1, by omega⟩
    unfold castRest
    rw [h.kindOf_append, h.ordOf_append, h.tail_append]
    refine .ite (fun has => ?_) fun _ => .found (u := []) hc hwhole (by simpa using hus) h rfl
    obtain ⟨w, ws, rfl, hw, hrow, hord, hlt, hlen⟩ := h.taken has
    rw [List.tail_cons, hrow.kindOf_append]
    cases htype : variableType? (kindOf ws) with
    | none =>
      dsimp only
      rw [hrow.gapAt_append]
      exact .gap ⟨⟨hc.1, hlt, hrow.ordOf_lt⟩, hc.2, definite_gapAt⟩ id
    | some type =>
      obtain ⟨v, ws, rfl, -, hrest, -, hlt', hlen'⟩ :=
        hrow.taken rfl (not_endsRow htype)
      have hcast : (Casted.cast c w.ord type).Tidy n :=
        ⟨⟨hc.1, show w.ord + 1 + 1 < n from hord ▸ hlt'⟩, hc.2,
          variableType?_isNumeric htype⟩
      have hspells : (Casted.cast c w.ord type).Spells (us ++ [w, v]) :=
        ⟨us, w, v, rfl, hus, hw, rfl, htype⟩
      exact (ih hcast hwhole hspells hrest (by omega)).after (u := [w, v])
        (fun _ _ hs => by simpa using hs) rfl

section

variable (hn : 1 < n)
include hn

mutual

theorem agrees_relational {k m : Nat} {ws : List Word} (h : Row n ws)
    (hk : 16 * ws.length + 4 ≤ min k m) :
    Agrees (Relational.Tidy n) Relational.Whole Relational.Spells n ws z (relational k ws)
      (relational m (ws ++ z)) := by
  match k, m with
  | 0, _ | _, 0 => omega
  | k + 1, m + 1 =>
    unfold relational
    refine .elim (agrees_expr h (by omega))
      (fun _ hl hgap => .gap ⟨hl.1, hl.2⟩ hgap) fun l us vs hl hwhole hus hvs hws => ?_
    subst hws
    dsimp only
    rw [hvs.kindOf_append, hvs.tail_append]
    cases hop : relOp? (kindOf vs) with
    | none => exact .found ⟨hl.1, hl.2⟩ hwhole hus hvs rfl
    | some op =>
      obtain ⟨w, vs, rfl, -, hrow, -, -, hlen⟩ := hvs.taken rfl (not_endsRow hop)
      rw [List.length_append] at hk
      have hr := agrees_expr (k := k) (m := m) hrow (by omega)
      exact hr.map (u := us ++ [w]) (Relational.compare l op)
        (fun _ hr => ⟨⟨hl.1, hr.1⟩, hl.2, hr.2⟩) (fun _ => and_iff_right hwhole)
        (fun _ v hv => ⟨us, w, v, by simp, hus, hop, hv⟩) (by simp)
termination_by structural k

theorem agrees_expr {k m : Nat} {ws : List Word} (h : Row n ws)
    (hk : 16 * ws.length + 3 ≤ min k m) :
    Agrees (Expr.Tidy n) Expr.Whole Expr.Spells n ws z (expr k ws) (expr m (ws ++ z)) := by
  match k, m with
  | 0, _ | _, 0 => omega
  | k + 1, m + 1 =>
    unfold expr
    refine .elim (agrees_term h (by omega))
      (fun _ ht hgap => .gap ⟨ht.1, ht.2⟩ hgap) fun t us vs ht hwhole hus hvs hws => ?_
    rw [hws, List.length_append] at hk
    exact (agrees_exprRest (l := .term t) ⟨ht.1, ht.2⟩ hwhole hus hvs (by omega)).after
      (fun _ _ => id) hws
termination_by structural k

theorem agrees_exprRest {k m : Nat} {l : Expr} {us ws : List Word} (hl : l.Tidy n)
    (hwhole : l.Whole) (hus : l.Spells us) (h : Row n ws) (hk : 16 * ws.length + 2 ≤ min k m) :
    Agrees (Expr.Tidy n) Expr.Whole (fun e v => e.Spells (us ++ v)) n ws z (exprRest k l ws)
      (exprRest m l (ws ++ z)) := by
  match k, m with
  | 0, _ | _, 0 => omega
  | k + 1, m + 1 =>
    unfold exprRest
    rw [h.kindOf_append, h.tail_append]
    cases hop : sumOp? (kindOf ws) with
    | none => exact .found (u := []) hl hwhole (by simpa using hus) h rfl
    | some op =>
      obtain ⟨w, ws, rfl, -, hrow, -, -, hlen⟩ := h.taken rfl (not_endsRow hop)
      rw [List.tail_cons]
      dsimp only
      refine .elim (agrees_term hrow (by omega))
        (fun _ ht hgap => .gap ⟨⟨hl.1, ht.1⟩, hl.2, ht.2⟩ fun h => hgap h.2)
        fun t xs vs ht hwhole' hxs hvs hws => ?_
      subst hws
      rw [List.length_cons, List.length_append] at hk
      have hsum : (Expr.sum l op t).Tidy n := ⟨⟨hl.1, ht.1⟩, hl.2, ht.2⟩
      have hspells : (Expr.sum l op t).Spells (us ++ w :: xs) := ⟨us, w, xs, rfl, hus, hop, hxs⟩
      exact (agrees_exprRest hsum ⟨hwhole, hwhole'⟩ hspells hvs (by omega)).after
        (u := w :: xs) (fun _ _ hs => by simpa using hs) rfl
termination_by structural k

theorem agrees_term {k m : Nat} {ws : List Word} (h : Row n ws)
    (hk : 16 * ws.length + 2 ≤ min k m) :
    Agrees (Term.Tidy n) Term.Whole Term.Spells n ws z (term k ws) (term m (ws ++ z)) := by
  match k, m with
  | 0, _ | _, 0 => omega
  | k + 1, m + 1 =>
    unfold term
    refine .elim (agrees_factor h (by omega))
      (fun _ hf hgap => .gap ⟨hf.1, hf.2⟩ hgap) fun f us vs hf hwhole hus hvs hws => ?_
    rw [hws, List.length_append] at hk
    exact (agrees_termRest (l := .factor f) ⟨hf.1, hf.2⟩ hwhole hus hvs (by omega)).after
      (fun _ _ => id) hws
termination_by structural k

theorem agrees_termRest {k m : Nat} {l : Term} {us ws : List Word} (hl : l.Tidy n)
    (hwhole : l.Whole) (hus : l.Spells us) (h : Row n ws) (hk : 16 * ws.length + 1 ≤ min k m) :
    Agrees (Term.Tidy n) Term.Whole (fun t v => t.Spells (us ++ v)) n ws z (termRest k l ws)
      (termRest m l (ws ++ z)) := by
  match k, m with
  | 0, _ | _, 0 => omega
  | k + 1, m + 1 =>
    unfold termRest
    rw [h.kindOf_append, h.tail_append]
    cases hop : productOp? (kindOf ws) with
    | none => exact .found (u := []) hl hwhole (by simpa using hus) h rfl
    | some op =>
      obtain ⟨w, ws, rfl, -, hrow, -, -, hlen⟩ := h.taken rfl (not_endsRow hop)
      rw [List.tail_cons]
      dsimp only
      refine .elim (agrees_factor hrow (by omega))
        (fun _ hf hgap => .gap ⟨⟨hl.1, hf.1⟩, hl.2, hf.2⟩ fun h => hgap h.2)
        fun f xs vs hf hwhole' hxs hvs hws => ?_
      subst hws
      rw [List.length_cons, List.length_append] at hk
      have hproduct : (Term.product l op f).Tidy n := ⟨⟨hl.1, hf.1⟩, hl.2, hf.2⟩
      have hspells : (Term.product l op f).Spells (us ++ w :: xs) :=
        ⟨us, w, xs, rfl, hus, hop, hxs⟩
      exact (agrees_termRest hproduct ⟨hwhole, hwhole'⟩ hspells hvs (by omega)).after
        (u := w :: xs) (fun _ _ hs => by simpa using hs) rfl
termination_by structural k

theorem agrees_factor {k m : Nat} {ws : List Word} (h : Row n ws)
    (hk : 16 * ws.length + 1 ≤ min k m) :
    Agrees (Factor.Tidy n) Factor.Whole Factor.Spells n ws z (factor k ws)
      (factor m (ws ++ z)) := by
  match k, m with
  | 0, _ | _, 0 => omega
  | k + 1, m + 1 =>
    obtain ⟨us, hws, hus, hrow, heq⟩ := signs_append (z := z) h
    have hlen : ws.length = us.length + (signs ws).2.length := by
      rw [← List.length_append, ← hws]
    unfold factor
    rw [heq, h.ordOf_append]
    dsimp only
    generalize (signs ws).1 = ss at hus ⊢
    generalize (signs ws).2 = rest at hws hrow hlen ⊢
    refine .elim (agrees_primary hrow (by omega))
      (fun _ hp hgap => .gap ⟨⟨h.ordOf_lt, hp.1⟩, hp.2⟩ hgap)
      fun p xs vs hp hwhole hxs hvs hrest => ?_
    subst hrest
    have hne : us ++ xs ≠ [] := fun hnil => Primary.ne_nil hxs (List.append_eq_nil_iff.mp hnil).2
    have hord : ordOf ws = ordOf (us ++ xs) := by
      rw [hws, ← List.append_assoc, ordOf_append hne]
    rw [List.length_append] at hlen
    have hpos := hvs.length_pos
    have hc := agrees_castRest (z := z) (k := k) (m := m) (c := .primary p)
      ⟨hp.1, hp.2⟩ hwhole hxs hvs (by omega)
    refine hc.map (u := us ++ xs) (Factor.mk (ordOf ws) ss)
      (fun _ hc => ⟨⟨h.ordOf_lt, hc.1⟩, hc.2⟩) (fun _ => Iff.rfl) (fun _ v hv => ?_)
      (by simpa using hws)
    exact ⟨us, xs ++ v, by simp, hus, hv, by rw [hord, ordOf_append hne]⟩
termination_by structural k

theorem agrees_primary {k m : Nat} {ws : List Word} (h : Row n ws) (hk : 16 * ws.length ≤ min k m) :
    Agrees (Primary.Tidy n) Primary.Whole Primary.Spells n ws z (primary k ws)
      (primary m (ws ++ z)) := by
  match k, m, ws with
  | _, _, [] => exact h.elim
  | 0, _, w :: ws | _, 0, w :: ws => simp only [List.length_cons] at hk; omega
  | k + 1, m + 1, w :: ws =>
    rw [List.length_cons] at hk
    rw [List.cons_append]
    unfold primary
    split
    · rename_i hw
      obtain ⟨hrow, -, hlt⟩ := h.behind hw
      rw [hrow.kindOf_append, hrow.tail_append]
      refine .ite (fun hl => ?_) fun _ =>
        .found (u := [w]) ⟨hlt, trivial⟩ trivial ⟨w, rfl, hw, rfl⟩ hrow rfl
      obtain ⟨l, vs, rfl, hl, hvs, -, -, hlen⟩ := hrow.taken hl
      have has := agrees_args (k := k) (m := m) (b := true) hvs (by rw [if_pos rfl]; omega)
      exact has.map (u := [w, l]) _ (fun _ has => ⟨⟨hlt, has.1⟩, has.2⟩)
        (fun _ => Iff.rfl) (fun _ v hv => ⟨w, l, v, rfl, ⟨hw, rfl⟩, hl, hv⟩) rfl
    · rename_i v hw hv
      obtain ⟨hrow, -, hlt⟩ := h.behind hw
      exact .found (u := [w]) ⟨hlt, trivial⟩ trivial ⟨w, v, rfl, .inl hw, hv, rfl, rfl⟩
        hrow rfl
    · rename_i v hw hv
      obtain ⟨hrow, -, hlt⟩ := h.behind hw
      exact .found (u := [w]) ⟨hlt, trivial⟩ trivial ⟨w, v, rfl, .inr hw, hv, rfl, rfl⟩
        hrow rfl
    · rename_i b hw hv
      obtain ⟨hrow, -, hlt⟩ := h.behind hw
      exact .found (u := [w]) ⟨hlt, trivial⟩ trivial ⟨w, rfl, hw, hv, rfl⟩ hrow rfl
    · rename_i s hw hv
      obtain ⟨hrow, -, hlt⟩ := h.behind hw
      exact .found (u := [w]) ⟨hlt, trivial⟩ trivial ⟨w, rfl, hw, hv, rfl⟩ hrow rfl
    · rename_i hw
      obtain ⟨hrow, -, hlt⟩ := h.behind hw
      refine .elim (agrees_relational hrow (by omega))
        (fun _ hr hgap => .gap ⟨⟨hlt, hr.1, hn⟩, hr.2, trivial⟩ fun h => hgap h.1)
        fun r us vs hr hwhole hus hvs hws => ?_
      exact agrees_closing (u := w :: us) (by decide) hvs (Primary.paren w.ord r)
        (fun _ hc => ⟨⟨hlt, hr.1, hc.1⟩, hr.2, hc.2⟩) (fun _ => and_iff_right hwhole)
        (fun _ e he => ⟨w, us, e, rfl, hw, rfl, hus, he⟩) (congrArg (w :: ·) hws)
    · exact .gap ⟨h.ordOf_lt, definite_gapAt⟩ id
termination_by structural k

theorem agrees_args {k m : Nat} {b : Bool} {ws : List Word} (h : Row n ws)
    (hk : 16 * ws.length + (if b then 5 else 1) ≤ min k m) :
    Agrees (Args.Tidy n) Args.Whole (fun as v => as.Spells b v) n ws z (args k b ws)
      (args m b (ws ++ z)) := by
  match k, m with
  | 0, _ | _, 0 => split at hk <;> omega
  | k + 1, m + 1 =>
    unfold args
    rw [h.kindOf_append, h.ordOf_append, h.tail_append, h.gapAt_append]
    refine .ite (fun hclose => ?_) fun _ => ?_
    · obtain ⟨w, ws, rfl, hw, hrow, -, hlt, -⟩ := h.taken hclose
      exact .found (u := [w]) ⟨hlt, trivial⟩ trivial ⟨w, rfl, hw, rfl⟩ hrow rfl
    cases b with
    | true =>
      rw [if_pos rfl] at hk
      exact agrees_argument (b := true) (c := []) rfl h (by omega)
    | false =>
      rw [if_neg Bool.false_ne_true] at hk
      rw [if_neg Bool.false_ne_true, if_neg Bool.false_ne_true]
      refine .ite (fun hcomma => ?_) fun _ => .gap ⟨h.ordOf_lt, definite_gapAt⟩ id
      obtain ⟨w, ws, rfl, hw, hrow, -, -, hlen⟩ := h.taken hcomma
      exact (agrees_argument (b := false) (c := [w]) ⟨w, rfl, hw⟩ hrow (by omega)).after
        (u := [w]) (fun _ _ => id) rfl
termination_by structural k

/-- An argument behind its comma, if it has one. -/
theorem agrees_argument {k m : Nat} {b : Bool} {c ws : List Word}
    (hc : if b then c = [] else ∃ w : Word, c = [w] ∧ w.kind = .comma) (h : Row n ws)
    (hk : 16 * ws.length + 4 ≤ min k m) :
    Agrees (Args.Tidy n) Args.Whole (fun as v => as.Spells b (c ++ v)) n ws z (argument k ws)
      (argument m (ws ++ z)) := by
  match k, m with
  | 0, _ | _, 0 => omega
  | k + 1, m + 1 =>
    unfold argument
    refine .elim (agrees_expr h (by omega))
      (fun _ he hgap => .gap ⟨⟨he.1, hn⟩, he.2, trivial⟩ fun h => hgap h.1)
      fun e us vs he hwhole hus hvs hws => ?_
    rw [hws, List.length_append] at hk
    have has := agrees_args (k := k) (m := m) (b := false) hvs
      (by rw [if_neg Bool.false_ne_true]; omega)
    exact has.map _ (fun _ has => ⟨⟨he.1, has.1⟩, he.2, has.2⟩)
      (fun _ => and_iff_right hwhole) (fun _ v hv => ⟨c, us, v, by simp, hc, hus, hv⟩) hws
termination_by structural k

end

theorem agrees_parseExpr (h : Row n ws) :
    Agrees (Expr.Tidy n) Expr.Whole Expr.Spells n ws z (parseExpr ws) (parseExpr (ws ++ z)) := by
  refine agrees_expr hn h ?_
  rw [budget, budget, List.length_append]
  omega

theorem agrees_parseRelational (h : Row n ws) :
    Agrees (Relational.Tidy n) Relational.Whole Relational.Spells n ws z (parseRelational ws)
      (parseRelational (ws ++ z)) := by
  refine agrees_relational hn h ?_
  rw [budget, budget, List.length_append]
  omega

theorem agrees_parseArgs (h : Row n ws) :
    Agrees (Args.Tidy n) Args.Whole (fun as v => as.Spells true v) n ws z (parseArgs ws)
      (parseArgs (ws ++ z)) := by
  refine agrees_args hn h ?_
  rw [budget, budget, List.length_append, if_pos rfl]
  omega

end

/-! ## Declarations and statements -/

theorem typedName_append (h : Row n ws) :
    (∃ g : Gap, (g.ord < n ∧ g.Definite) ∧ typedName ws = .error g ∧
        typedName (ws ++ z) = .error g) ∨
      ∃ x type w c t vs, ws = w :: c :: t :: vs ∧
        (x.Spells w ∧ c.kind = .colon ∧ variableType? t.kind = some type) ∧
        (x.ord + 3 < n ∧ x.text ≠ "" ∧ type.isNumeric = true) ∧ Row n vs ∧
        typedName ws = .ok (x, type, vs) ∧
        typedName (ws ++ z) = .ok (x, type, vs ++ z) := by
  obtain ⟨w, ws, rfl⟩ := h.exists_cons
  rw [List.cons_append]
  unfold typedName
  dsimp only
  by_cases hw : w.kind = .ident
  · obtain ⟨hrow, hord, -⟩ := h.behind hw
    rw [if_neg (not_not_intro hw), if_neg (not_not_intro hw), hrow.kindOf_append,
      hrow.tail_append]
    by_cases hc : kindOf ws = .colon
    · rw [if_neg (not_not_intro hc), if_neg (not_not_intro hc)]
      obtain ⟨c, ws, rfl, hc, hrow, hord', -⟩ := hrow.taken hc
      rw [List.tail_cons, hrow.kindOf_append]
      cases ht : variableType? (kindOf ws) with
      | none =>
        dsimp only
        rw [hrow.gapAt_append]
        exact .inl ⟨_, ⟨hrow.ordOf_lt, definite_gapAt⟩, rfl, rfl⟩
      | some type =>
        obtain ⟨t, ws, rfl, -, hrow, -, hlt, -⟩ := hrow.taken rfl (not_endsRow ht)
        have hlt' : w.ord + 3 < n := by
          simp only [ordOf] at hord hord'
          omega
        exact .inr ⟨⟨nameText w.value, w.ord⟩, type, w, c, t, ws, rfl, ⟨⟨hw, rfl⟩, hc, ht⟩,
          ⟨hlt', h.name hw, variableType?_isNumeric ht⟩, hrow, rfl, rfl⟩
    · rw [if_pos hc, if_pos hc, hrow.gapAt_append]
      exact .inl ⟨_, ⟨hrow.ordOf_lt, definite_gapAt⟩, rfl, rfl⟩
  · rw [if_pos hw, if_pos hw]
    exact .inl ⟨_, ⟨h.ordOf_lt, definite_gapAt⟩, rfl, rfl⟩

/-- A value is as its expression. -/
theorem OfRow.some {e : Expr} (h : e.Tidy n) : ValueTidy n (some e) := by
  refine ⟨?_, ?_⟩
  · rintro _ ⟨⟩
    exact h.within
  · rintro _ ⟨⟩
    exact h.plain

theorem valueWhole_some {e : Expr} : ValueWhole (some e) ↔ e.Whole :=
  ⟨fun h => h e rfl, by rintro h _ ⟨⟩; exact h⟩

section

variable (hn : 1 < n)
include hn

theorem agrees_initializer (h : Row n ws) :
    Agrees (ValueTidy n) ValueWhole InitSpells n ws z (initializer ws)
      (initializer (ws ++ z)) := by
  unfold initializer
  rw [h.kindOf_append, h.tail_append]
  refine .ite (fun hassign => ?_) fun _ => .found (u := []) ⟨nofun, nofun⟩ nofun rfl h rfl
  obtain ⟨w, ws, rfl, hw, hrow, -⟩ := h.taken hassign
  exact (agrees_parseExpr hn hrow).map (u := [w]) some (fun _ he => he.some)
    (fun _ => valueWhole_some) (fun _ v hv => ⟨w, v, rfl, hw, hv⟩) rfl

theorem agrees_declaration (hw : w.kind = .letKw ∨ w.kind = .constKw) (h : Row n ws) :
    Agrees (Decl.Tidy n) Decl.Whole (fun d v => d.Spells (w :: v)) n ws z (declaration (w :: ws))
      (declaration (w :: (ws ++ z))) := by
  unfold declaration
  rw [List.tail_cons, List.tail_cons]
  obtain ⟨g, hg, heq, heq'⟩ | ⟨x, type, y, c, t, vs, rfl, hspells, ⟨hx, htype⟩, hvs, heq, heq'⟩ :=
    typedName_append (z := z) h
  · rw [heq, heq']
    exact .gap ⟨hg.1, hg.2⟩ id
  · rw [heq, heq']
    dsimp only
    refine .elim (agrees_initializer (z := z) hn hvs)
      (fun _ hinit hgap => .gap ⟨⟨hx, hinit.1, hn⟩, htype, hinit.2, trivial⟩ fun h => hgap h.1)
      fun init us vs hinit hwhole hus hvs hws => ?_
    refine agrees_closing (u := y :: c :: t :: us) (by decide) hvs (Decl.mk _ x type init)
      (fun _ hc => ⟨⟨hx, hinit.1, hc.1⟩, htype, hinit.2, hc.2⟩)
      (fun _ => and_iff_right hwhole) (fun _ e he => ?_) (by rw [hws]; rfl)
    refine ⟨w, y, c, t, us, e, rfl, ?_, hspells.1, hspells.2.1, hspells.2.2, hus, he⟩
    rcases hw with hw | hw <;> simp [kindOf, hw]

theorem agrees_returned (hw : w.kind = .returnKw) (hlt : w.ord + 1 < n) (h : Row n ws) :
    Agrees (Stmt.Tidy n) Stmt.Whole (fun s v => s.Spells (w :: v)) n ws z (returned w.ord ws)
      (returned w.ord (ws ++ z)) := by
  unfold returned
  rw [h.kindOf_append, h.ordOf_append, h.tail_append]
  refine .ite (fun hsemi => ?_) fun _ => ?_
  · obtain ⟨e, ws, rfl, he, hrow, -, hlt', -⟩ := h.taken hsemi
    exact .found (u := [e]) ⟨⟨hlt, nofun, hlt'⟩, nofun, trivial⟩ ⟨nofun, trivial⟩
      ⟨w, [], e, rfl, hw, rfl, rfl, he, rfl⟩ hrow rfl
  · refine .elim (agrees_parseExpr (z := z) hn h)
      (fun _ he hgap => .gap ⟨⟨hlt, he.some.1, hn⟩, he.some.2, trivial⟩
        fun h => hgap (valueWhole_some.1 h.1))
      fun e us vs he hwhole hus hvs hws => ?_
    exact agrees_closing (by decide) hvs (Stmt.ret w.ord (some e))
      (fun _ hc => ⟨⟨hlt, he.some.1, hc.1⟩, he.some.2, hc.2⟩)
      (fun _ => and_iff_right (valueWhole_some.2 hwhole))
      (fun _ e he => ⟨w, us, e, rfl, hw, rfl, hus, he⟩) hws

theorem agrees_named {x : Name} (hx : x.Spells w) (hlt : x.ord + 1 < n) (h : Row n ws) :
    Agrees (Stmt.Tidy n) Stmt.Whole (fun s v => s.Spells (w :: v)) n ws z (named x ws)
      (named x (ws ++ z)) := by
  unfold named
  rw [h.kindOf_append, h.tail_append, h.gapAt_append]
  split
  · rename_i hl
    obtain ⟨l, ws, rfl, hl, hrow, -⟩ := h.taken hl
    rw [List.tail_cons]
    refine .elim (agrees_parseArgs (z := z) hn hrow)
      (fun _ has hgap => .gap ⟨⟨hlt, has.1, hn⟩, has.2, trivial⟩ fun h => hgap h.1)
      fun as us vs has hwhole hus hvs hws => ?_
    exact agrees_closing (u := l :: us) (by decide) hvs (Stmt.call x as)
      (fun _ hc => ⟨⟨hlt, has.1, hc.1⟩, has.2, hc.2⟩) (fun _ => and_iff_right hwhole)
      (fun _ e he => ⟨w, l, us, e, rfl, hx, hl, hus, he⟩) (congrArg (l :: ·) hws)
  · rename_i hl
    obtain ⟨l, ws, rfl, hl, hrow, -⟩ := h.taken hl
    rw [List.tail_cons]
    refine .elim (agrees_parseExpr (z := z) hn hrow)
      (fun _ he hgap => .gap ⟨⟨hlt, he.1, hn⟩, he.2, trivial⟩ fun h => hgap h.1)
      fun e us vs he hwhole hus hvs hws => ?_
    exact agrees_closing (u := l :: us) (by decide) hvs (Stmt.assign x e)
      (fun _ hc => ⟨⟨hlt, he.1, hc.1⟩, he.2, hc.2⟩) (fun _ => and_iff_right hwhole)
      (fun _ e he => ⟨w, l, us, e, rfl, hx, hl, hus, he⟩) (congrArg (l :: ·) hws)
  · exact .gap ⟨⟨hlt, h.ordOf_lt⟩, definite_gapAt⟩ id

mutual

theorem agrees_block {k m : Nat} {ws : List Word} (h : Row n ws) (hk : 16 * ws.length ≤ min k m) :
    Agrees (Block.Tidy n) Block.Whole Block.Spells n ws z (block k ws) (block m (ws ++ z)) := by
  have hpos := h.length_pos
  match k, m with
  | 0, _ | _, 0 => omega
  | k + 1, m + 1 =>
    unfold block
    rw [h.kindOf_append, h.tail_append, h.gapAt_append]
    refine .ite (fun hbrace => ?_) fun _ => .gap ⟨h.ordOf_lt, definite_gapAt⟩ id
    obtain ⟨w, ws, rfl, hw, hrow, -, -, hlen⟩ := h.taken hbrace
    have hss := agrees_stmts (k := k) (m := m) hrow (by omega)
    exact hss.map (u := [w]) Block.stmts (fun _ hss => ⟨hss.1, hss.2⟩)
      (fun _ => Iff.rfl) (fun _ v hv => ⟨w, v, rfl, hw, hv⟩) rfl

theorem agrees_stmts {k m : Nat} {ws : List Word} (h : Row n ws)
    (hk : 16 * ws.length + 2 ≤ min k m) :
    Agrees (Stmts.Tidy n) Stmts.Whole Stmts.Spells n ws z (stmts k ws) (stmts m (ws ++ z)) := by
  match k, m with
  | 0, _ | _, 0 => omega
  | k + 1, m + 1 =>
    unfold stmts
    rw [h.kindOf_append, h.ordOf_append, h.tail_append]
    refine .ite (fun hbrace => ?_) fun _ => ?_
    · obtain ⟨w, ws, rfl, hw, hrow, -, hlt, -⟩ := h.taken hbrace
      exact .found (u := [w]) ⟨hlt, trivial⟩ trivial ⟨w, rfl, hw, rfl⟩ hrow rfl
    · obtain ⟨w, ws, rfl⟩ := h.exists_cons
      rw [List.length_cons] at hk
      rw [List.cons_append]
      refine .elim (agrees_stmt h (by omega))
        (fun _ hs hgap => .gap ⟨⟨hs.1, hn⟩, hs.2, trivial⟩ fun h => hgap h.1)
        fun s us vs hs hwhole hus hvs hws => ?_
      rw [hws, List.length_append] at hk
      have hss := agrees_stmts (k := k) (m := m) hvs (by omega)
      exact hss.map (u := w :: us) (Stmts.more s)
        (fun _ hss => ⟨⟨hs.1, hss.1⟩, hs.2, hss.2⟩)
        (fun _ => and_iff_right hwhole) (fun _ v hv => ⟨w :: us, v, rfl, hus, hv⟩)
        (congrArg (w :: ·) hws)

theorem agrees_stmt {k m : Nat} {w : Word} {ws : List Word} (h : Row n (w :: ws))
    (hk : 16 * ws.length + 2 ≤ min k m) :
    Agrees (Stmt.Tidy n) Stmt.Whole (fun s v => s.Spells (w :: v)) n ws z (stmt k (w :: ws))
      (stmt m (w :: (ws ++ z))) := by
  match k, m with
  | 0, _ | _, 0 => omega
  | k + 1, m + 1 =>
    have hdecl (hw : w.kind = .letKw ∨ w.kind = .constKw) (hrow : Row n ws) :
        Agrees (Stmt.Tidy n) Stmt.Whole (fun s v => s.Spells (w :: v)) n ws z
          (.declare (declaration (w :: ws)).1, (declaration (w :: ws)).2)
          (.declare (declaration (w :: (ws ++ z))).1, (declaration (w :: (ws ++ z))).2) :=
      (agrees_declaration hn hw hrow).map (u := []) Stmt.declare
        (fun _ hd => ⟨hd.1, hd.2⟩) (fun _ => Iff.rfl) (fun _ _ => id) rfl
    unfold stmt
    split
    · rename_i hw
      obtain ⟨hrow, -, hlt⟩ := h.behind hw
      exact (agrees_branch hrow (by omega)).map (u := []) Stmt.branch
        (fun _ hi => ⟨hi.1, hi.2⟩) (fun _ => Iff.rfl) (fun _ v hv => ⟨w, v, rfl, hw, hv⟩) rfl
    · rename_i hw
      obtain ⟨hrow, -, hlt⟩ := h.behind hw
      refine .elim (agrees_parseRelational (z := z) hn hrow)
        (fun _ hc hgap => .gap ⟨⟨hlt, hc.1, hn⟩, hc.2, trivial⟩ fun h => hgap h.1)
        fun c us vs hc hwhole hus hvs hws => ?_
      rw [hws, List.length_append] at hk
      exact (agrees_block hvs (by omega)).map (Stmt.loop w.ord c)
        (fun _ hb => ⟨⟨hlt, hc.1, hb.1⟩, hc.2, hb.2⟩)
        (fun _ => and_iff_right hwhole) (fun _ v hv => ⟨w, us, v, rfl, hw, rfl, hus, hv⟩) hws
    · rename_i hw
      obtain ⟨hrow, -, hlt⟩ := h.behind hw
      exact agrees_returned hn hw hlt hrow
    · rename_i hw
      obtain ⟨hrow, hord, hlt⟩ := h.behind hw
      exact agrees_closing (u := []) (by decide) hrow (Stmt.brk w.ord)
        (fun _ hc => ⟨⟨hlt, hc.1⟩, hc.2, hc.behind _ (by omega)⟩) (fun _ => Iff.rfl)
        (fun _ e he => ⟨w, e, rfl, hw, rfl, he⟩) rfl
    · rename_i hw
      obtain ⟨hrow, hord, hlt⟩ := h.behind hw
      exact agrees_closing (u := []) (by decide) hrow (Stmt.cont w.ord)
        (fun _ hc => ⟨⟨hlt, hc.1⟩, hc.2, hc.behind _ (by omega)⟩) (fun _ => Iff.rfl)
        (fun _ e he => ⟨w, e, rfl, hw, rfl, he⟩) rfl
    · rename_i hw
      obtain ⟨hrow, -, hlt⟩ := h.behind hw
      exact .found (u := []) ⟨trivial, trivial⟩ trivial ⟨w, rfl, hw⟩ hrow rfl
    · rename_i hw
      obtain ⟨hrow, -, hlt⟩ := h.behind hw
      exact agrees_named hn ⟨hw, rfl⟩ hlt hrow
    · rename_i hw
      exact hdecl (.inl hw) (h.behind hw).1
    · rename_i hw
      exact hdecl (.inr hw) (h.behind hw).1
    · exact .gap ⟨h.ordOf_lt, definite_gapAt⟩ id

theorem agrees_branch {k m : Nat} {ws : List Word} (h : Row n ws)
    (hk : 16 * ws.length + 1 ≤ min k m) :
    Agrees (If.Tidy n) If.Whole If.Spells n ws z (branch k ws) (branch m (ws ++ z)) := by
  match k, m with
  | 0, _ | _, 0 => omega
  | k + 1, m + 1 =>
    unfold branch
    refine .elim (agrees_parseRelational (z := z) hn h)
      (fun _ hc hgap => .gap ⟨⟨hc.1, hn, trivial⟩, hc.2, trivial, trivial⟩ fun h => hgap h.1)
      fun c us vs hc hwhole hus hvs hws => ?_
    rw [hws, List.length_append] at hk
    have hb := agrees_block (k := k) (m := m) hvs (by omega)
    dsimp only
    generalize block k vs = b at hb ⊢
    generalize block m (vs ++ z) = b' at hb ⊢
    cases hb with
    | gap hb hgap =>
      exact .gap ⟨⟨hc.1, hb.1, trivial⟩, hc.2, hb.2, trivial⟩ fun h => hgap h.2.1
    | @found b xs ys hb hwhole' hxs hys hvs =>
      subst hvs
      rw [List.length_append] at hk
      have ha := agrees_otherwise (k := k) (m := m) hys (by omega)
      exact ha.map (u := us ++ xs) (If.mk c b)
        (fun _ ha => ⟨⟨hc.1, hb.1, ha.1⟩, hc.2, hb.2, ha.2⟩)
        (fun _ => (and_iff_right hwhole).trans (and_iff_right hwhole'))
        (fun _ v hv => ⟨us, xs, v, by simp, hus, hxs, hv⟩) (by simpa using hws)

theorem agrees_otherwise {k m : Nat} {ws : List Word} (h : Row n ws)
    (hk : 16 * ws.length ≤ min k m) :
    Agrees (Else.Tidy n) Else.Whole Else.Spells n ws z (otherwise k ws)
      (otherwise m (ws ++ z)) := by
  have hpos := h.length_pos
  match k, m with
  | 0, _ | _, 0 => omega
  | k + 1, m + 1 =>
    unfold otherwise
    rw [h.kindOf_append, h.tail_append]
    refine .unless (fun _ => .found (u := []) ⟨trivial, trivial⟩ trivial rfl h rfl) fun helse => ?_
    obtain ⟨w, ws, rfl, hw, hrow, -, -, hlen⟩ := h.taken helse
    rw [List.tail_cons, hrow.kindOf_append, hrow.tail_append, hrow.gapAt_append]
    split
    · rename_i hv
      obtain ⟨v, ws, rfl, hv, hrow, -, -, hlen'⟩ := hrow.taken hv
      exact (agrees_branch hrow (by omega)).map (u := [w, v]) Else.branch
        (fun _ hi => ⟨hi.1, hi.2⟩) (fun _ => Iff.rfl)
        (fun _ us hus => ⟨w, v, us, rfl, hw, hv, hus⟩) rfl
    · exact (agrees_block hrow (by omega)).map (u := [w]) Else.block
        (fun _ hb => ⟨hb.1, hb.2⟩) (fun _ => Iff.rfl) (fun _ v hv => ⟨w, v, rfl, hw, hv⟩)
        rfl
    · exact .gap ⟨hrow.ordOf_lt, definite_gapAt⟩ id

end

theorem agrees_parseBlock (h : Row n ws) :
    Agrees (Block.Tidy n) Block.Whole Block.Spells n ws z (parseBlock ws)
      (parseBlock (ws ++ z)) := by
  refine agrees_block hn h ?_
  rw [budget, budget, List.length_append]
  omega

end

/-! ## Functions and programs -/

theorem param_append (h : Row n ws) :
    (∃ g : Gap, (g.ord < n ∧ g.Definite) ∧ param ws = .error g ∧ param (ws ++ z) = .error g) ∨
      ∃ p us vs, ws = us ++ vs ∧ p.Spells us ∧
        (p.x.ord + 3 < n ∧ p.x.text ≠ "" ∧ p.type.isNumeric = true) ∧ Row n vs ∧
        vs.length < ws.length ∧ param ws = .ok (p, vs) ∧
        param (ws ++ z) = .ok (p, vs ++ z) := by
  have hfrom : ∃ cs us, ws = cs ++ us ∧
      (if decide (kindOf ws = .constKw) then ∃ w, cs = [w] ∧ w.kind = .constKw else cs = []) ∧
      (if decide (kindOf ws = .constKw) then ws.tail else ws) = us ∧
      (if decide (kindOf ws = .constKw) then (ws ++ z).tail else ws ++ z) = us ++ z ∧
      Row n us := by
    by_cases hconst : kindOf ws = .constKw
    · obtain ⟨w, ws, rfl, hw, hrow, -⟩ := h.taken hconst
      simp only [decide_eq_true hconst, if_true]
      exact ⟨[w], ws, rfl, ⟨w, rfl, hw⟩, rfl, rfl, hrow⟩
    · simp only [decide_eq_false hconst, Bool.false_eq_true, if_false]
      exact ⟨[], ws, rfl, rfl, rfl, rfl, h⟩
  obtain ⟨cs, us, hws, hcs, heq, heq', hus⟩ := hfrom
  unfold param
  dsimp only
  rw [h.kindOf_append, heq, heq']
  obtain ⟨g, hg, hread, hread'⟩ |
      ⟨x, type, y, c, t, vs, rfl, hspells, hx, hvs, hread, hread'⟩ := typedName_append (z := z) hus
  · rw [hread, hread']
    exact .inl ⟨g, hg, rfl, rfl⟩
  · rw [hread, hread']
    refine .inr ⟨_, cs ++ [y, c, t], vs, by simpa using hws, ⟨cs, y, c, t, rfl, hcs, hspells⟩,
      hx, hvs, ?_, rfl, rfl⟩
    rw [hws]
    simp only [List.length_append, List.length_cons]
    omega

theorem params_append (h : Row n ws) (hk : ws.length < min k m) :
    ∃ ps, (∀ p ∈ ps, p.x.ord + 3 < n ∧ p.x.text ≠ "" ∧ p.type.isNumeric = true) ∧
      ((∃ g : Gap, (g.ord < n ∧ g.Definite) ∧ params k ws = (ps, .error g) ∧
          params m (ws ++ z) = (ps, .error g)) ∨
        ∃ us vs, ws = us ++ vs ∧ ParamsSpell ps us ∧ Row n vs ∧ params k ws = (ps, .ok vs) ∧
          params m (ws ++ z) = (ps, .ok (vs ++ z))) := by
  induction k generalizing m ws with
  | zero => omega
  | succ k ih =>
    obtain ⟨m, rfl⟩ : ∃ j, m = j + 1 := ⟨m - 1, by omega⟩
    unfold params
    obtain ⟨g, hg, hread, hread'⟩ | ⟨p, us, vs, hws, hus, hp, hvs, hlt, hread, hread'⟩ :=
      param_append (z := z) h
    · rw [hread, hread']
      exact ⟨[], nofun, .inl ⟨g, hg, rfl, rfl⟩⟩
    · rw [hread, hread']
      dsimp only
      rw [hvs.kindOf_append]
      by_cases hcomma : kindOf vs = .comma
      · rw [if_pos hcomma, if_pos hcomma, hvs.tail_append]
        obtain ⟨c, vs, rfl, hc, hrow, -, -, hlen⟩ := hvs.taken hcomma
        obtain ⟨ps, hps, hrest⟩ := ih (m := m) hrow (by omega)
        refine ⟨p :: ps, List.forall_mem_cons.2 ⟨hp, hps⟩, ?_⟩
        rw [List.tail_cons]
        obtain ⟨g, hg, hmore, hmore'⟩ | ⟨xs, ys, rfl, hxs, hys, hmore, hmore'⟩ := hrest
        · rw [hmore, hmore']
          exact .inl ⟨g, hg, rfl, rfl⟩
        · rw [hmore, hmore']
          refine .inr ⟨us ++ c :: xs, ys, by simpa using hws, ?_, hys, rfl, rfl⟩
          cases ps with
          | nil => exact hxs.elim
          | cons q qs => exact ⟨us, c, xs, rfl, hus, hc, hxs⟩
      · rw [if_neg hcomma, if_neg hcomma]
        exact ⟨[p], List.forall_mem_singleton.2 hp, .inr ⟨us, vs, hws, hus, hvs, rfl, rfl⟩⟩

/-- The tokens behind the parameters of a function. -/
def BodySpells (r : Except Gap (Ty × Block)) (ws : List Word) : Prop :=
  ∃ type b c a t vs, r = .ok (type, b) ∧ ws = c :: a :: t :: vs ∧ c.kind = .rParen ∧
    a.kind = .arrow ∧ resultType? t.kind = some type ∧ b.Spells vs

/-- There is no gap behind the parameters of a function. -/
def BodyWhole : Except Gap (Ty × Block) → Prop
  | .ok (_, b) => b.Whole
  | .error _ => False

theorem agrees_body (hn : 1 < n) (h : Row n ws) :
    Agrees (BodyTidy n) BodyWhole BodySpells n ws z (body ws) (body (ws ++ z)) := by
  unfold body
  rw [h.kindOf_append, h.tail_append, h.gapAt_append]
  refine .unless (fun _ => .gap ⟨h.ordOf_lt, definite_gapAt⟩ id) fun hc => ?_
  obtain ⟨c, ws, rfl, hc, hrow, -⟩ := h.taken hc
  rw [List.tail_cons, hrow.kindOf_append, hrow.tail_append, hrow.gapAt_append]
  refine .unless (fun _ => .gap ⟨hrow.ordOf_lt, definite_gapAt⟩ id) fun ha => ?_
  obtain ⟨a, ws, rfl, ha, hrow, -⟩ := hrow.taken ha
  rw [List.tail_cons, hrow.kindOf_append, hrow.tail_append, hrow.gapAt_append]
  cases ht : resultType? (kindOf ws) with
  | none => exact .gap ⟨hrow.ordOf_lt, definite_gapAt⟩ id
  | some type =>
    obtain ⟨t, ws, rfl, -, hrow, -⟩ := hrow.taken rfl (not_endsRow ht)
    exact (agrees_parseBlock hn hrow).map (u := [c, a, t]) (fun b => Except.ok (type, b))
      (fun b hb => ⟨hb.1, resultType?_ne_string ht, hb.2⟩) (fun _ => Iff.rfl)
      (fun b v hv => ⟨type, b, c, a, t, v, rfl, rfl, hc, ha, ht, hv⟩) rfl

/-- A function whose parameters have been found. -/
theorem agrees_function_body {w x l : Word} {u ws ws' : List Word} {ps : List Param} (hn : 1 < n)
    (hw : w.kind = .fnKw) (hx : x.kind = .ident) (hlt : x.ord + 1 < n)
    (hname : nameText x.value ≠ "") (hl : l.kind = .lParen)
    (hps : ∀ p ∈ ps, p.x.ord + 3 < n ∧ p.x.text ≠ "" ∧ p.type.isNumeric = true)
    (hspells : ps = [] ∧ u = [] ∨ ParamsSpell ps u) (h : Row n ws) (hws : ws' = x :: l :: u ++ ws) :
    Agrees (Fn.Tidy n) Fn.Whole (fun f v => f.Spells (w :: v)) n ws' z
      (.mk ⟨nameText x.value, x.ord⟩ ps (body ws).1, (body ws).2)
      (.mk ⟨nameText x.value, x.ord⟩ ps (body (ws ++ z)).1, (body (ws ++ z)).2) := by
  refine (agrees_body hn h).map (u := x :: l :: u) (Fn.mk _ ps) (fun r hb => ?_) (fun r => ?_)
    (fun r v hv => ?_) hws
  · exact ⟨⟨hlt, fun p hp => (hps p hp).1, hb.1⟩, hname, fun p hp => (hps p hp).2, hb.2⟩
  · cases r <;> exact Iff.rfl
  · obtain ⟨type, b, c, a, t, vs, rfl, rfl, hc, ha, ht, hb⟩ := hv
    exact ⟨w, x, l, u, c, a, t, vs, rfl, hw, ⟨hx, rfl⟩, hl, hspells, hc, ha, ht, hb⟩

theorem agrees_function (hn : 1 < n) (hw : w.kind = .fnKw) (h : Row n ws) :
    Agrees (Fn.Tidy n) Fn.Whole (fun f v => f.Spells (w :: v)) n ws z (function ws)
      (function (ws ++ z)) := by
  obtain ⟨x, ws, rfl⟩ := h.exists_cons
  rw [List.cons_append]
  unfold function
  dsimp only
  refine .unless (fun _ => .gap ⟨h.ordOf_lt, definite_gapAt⟩ id) fun hx => ?_
  obtain ⟨hrow, -, hlt⟩ := h.behind hx
  have hname := h.name hx
  rw [hrow.kindOf_append, hrow.tail_append, hrow.gapAt_append]
  refine .unless
    (fun _ => .gap ⟨⟨hlt, nofun, hrow.ordOf_lt⟩, hname, nofun, definite_gapAt⟩ id) fun hl => ?_
  obtain ⟨l, ws, rfl, hl, hrow, -⟩ := hrow.taken hl
  rw [List.tail_cons, hrow.kindOf_append]
  refine .ite (fun _ => agrees_function_body hn hw hx hlt hname hl nofun (.inl ⟨rfl, rfl⟩) hrow rfl)
    fun _ => ?_
  have hbudget : ws.length < min (budget (l :: ws)) (budget (l :: ws ++ z)) := by
    simp only [budget, List.length_append, List.length_cons]
    omega
  obtain ⟨ps, hps, hrest⟩ := params_append (z := z) hrow hbudget
  obtain ⟨g, hg, hread, hread'⟩ | ⟨us, vs, rfl, hus, hvs, hread, hread'⟩ := hrest
  · rw [hread, hread']
    exact .gap ⟨⟨hlt, fun p hp => (hps p hp).1, hg.1⟩, hname, fun p hp => (hps p hp).2, hg.2⟩ id
  · rw [hread, hread']
    exact agrees_function_body hn hw hx hlt hname hl hps (.inr hus) hvs rfl

theorem agrees_parseDecls (h : Row n ws) (hk : ws.length < min k m) :
    Agrees (fun ds => ∀ d ∈ ds, Decl.Tidy n d) (fun ds => ∀ d ∈ ds, d.Whole)
      (RowSpells Decl.Spells) n ws z (parseDecls k ws) (parseDecls m (ws ++ z)) := by
  induction k generalizing m ws with
  | zero => omega
  | succ k ih =>
    obtain ⟨m, rfl⟩ : ∃ j, m = j + 1 := ⟨m - 1, by omega⟩
    unfold parseDecls
    rw [h.kindOf_append]
    refine .ite (fun hstart => ?_) fun _ => .found (u := []) nofun nofun rfl h rfl
    obtain ⟨w, ws, rfl, -, hrow, -, hlt, hlen⟩ := h.taken rfl
      (by rcases hstart with hw | hw <;> rw [hw] <;> decide)
    rw [List.cons_append]
    refine .elim (agrees_declaration (z := z) (by omega) hstart hrow)
      (fun _ hd hgap => .gap (List.forall_mem_singleton.2 hd) fun h =>
        hgap (List.forall_mem_singleton.1 h))
      fun d us vs hd hwhole hus hvs hws => ?_
    subst hws
    rw [List.length_cons, List.length_append] at hk
    exact (ih hvs (by omega)).map (u := w :: us) (d :: ·)
      (fun _ hds => List.forall_mem_cons.2 ⟨hd, hds⟩)
      (fun _ => List.forall_mem_cons.trans (and_iff_right hwhole))
      (fun _ v hv => ⟨w :: us, v, rfl, hus, hv⟩) rfl

theorem agrees_parseFunctions (h : Row n ws) (hk : ws.length < min k m) :
    Agrees (fun fs => ∀ f ∈ fs, Fn.Tidy n f) (fun fs => ∀ f ∈ fs, f.Whole)
      (RowSpells Fn.Spells) n ws z (parseFunctions k ws) (parseFunctions m (ws ++ z)) := by
  induction k generalizing m ws with
  | zero => omega
  | succ k ih =>
    obtain ⟨m, rfl⟩ : ∃ j, m = j + 1 := ⟨m - 1, by omega⟩
    unfold parseFunctions
    rw [h.kindOf_append, h.tail_append]
    refine .ite (fun hstart => ?_) fun _ => .found (u := []) nofun nofun rfl h rfl
    obtain ⟨w, ws, rfl, hw, hrow, -, hlt, hlen⟩ := h.taken hstart
    rw [List.tail_cons]
    refine .elim (agrees_function (z := z) (by omega) hw hrow)
      (fun _ hf hgap => .gap (List.forall_mem_singleton.2 hf) fun h =>
        hgap (List.forall_mem_singleton.1 h))
      fun f us vs hf hwhole hus hvs hws => ?_
    subst hws
    rw [List.length_cons, List.length_append] at hk
    exact (ih hvs (by omega)).map (u := w :: us) (f :: ·)
      (fun _ hfs => List.forall_mem_cons.2 ⟨hf, hfs⟩)
      (fun _ => List.forall_mem_cons.trans (and_iff_right hwhole))
      (fun _ v hv => ⟨w :: us, v, rfl, hus, hv⟩) rfl

/-- The end of a program is looked for at one token, which is in the row. -/
theorem endOf_append (h : Row n ws) :
    ((closing .eof ws).1.EndsWithin n ∧ (closing .eof ws).1.Definite) ∧
      (closing .eof (ws ++ z)).1 = (closing .eof ws).1 ∧
      ((closing .eof ws).1.Whole → kindOf ws = .eof ∧ (closing .eof ws).1 = .word (ordOf ws)) := by
  unfold closing
  rw [h.kindOf_append, h.ordOf_append, h.gapAt_append]
  split
  · rename_i hkind
    exact ⟨⟨h.ordOf_lt, trivial⟩, rfl, fun _ => ⟨hkind, rfl⟩⟩
  · exact ⟨⟨h.ordOf_lt, definite_gapAt⟩, rfl, False.elim⟩

/-- The tree of a row names no token that is not in the row, tells in every gap what could have
stood there, and is one of the grammar. It does not depend on what stands behind the row. Without a
gap, the declarations and functions are found up to the end of the program. -/
theorem Program.ofWords_row (h : Row n ws) :
    OfRow (Program.Within n) Program.Plain (Program.ofWords ws) ∧
      Program.ofWords (ws ++ z) = Program.ofWords ws ∧
      ((Program.ofWords ws).Whole → ∃ us xs rest, ws = us ++ (xs ++ rest) ∧
        RowSpells Decl.Spells (Program.ofWords ws).decls us ∧
        RowSpells Fn.Spells (Program.ofWords ws).functions xs ∧ kindOf rest = .eof ∧
        (Program.ofWords ws).close = .word (ordOf rest)) := by
  have hpos : 0 < n := Nat.lt_of_le_of_lt (Nat.zero_le _) h.ordOf_lt
  have hbudget (vs : List Word) : vs.length < min (budget vs) (budget (vs ++ z)) := by
    rw [budget, budget, List.length_append]
    omega
  unfold Program.ofWords
  refine Agrees.elim (agrees_parseDecls (z := z) h (hbudget ws))
    (fun _ hds hgap =>
      ⟨⟨⟨fun d hd => (hds d hd).1, nofun, hpos⟩, fun d hd => (hds d hd).2, nofun, trivial⟩, rfl,
        fun h => absurd h.decls hgap⟩)
    fun ds us vs hds hwhole hus hvs hws => ?_
  have hfs := agrees_parseFunctions (z := z) hvs (hbudget vs)
  dsimp only
  generalize parseFunctions (budget vs) vs = fs at hfs ⊢
  generalize parseFunctions (budget (vs ++ z)) (vs ++ z) = fs' at hfs ⊢
  cases hfs with
  | gap hfs hgap =>
    exact ⟨⟨⟨fun d hd => (hds d hd).1, fun f hf => (hfs f hf).1, hpos⟩,
      fun d hd => (hds d hd).2, fun f hf => (hfs f hf).2, trivial⟩, rfl,
      fun h => absurd h.functions hgap⟩
  | @found fs xs rest hfs hwhole' hxs hrest hvs' =>
    obtain ⟨hclose, heq, hend⟩ := endOf_append (z := z) hrest
    refine ⟨⟨⟨fun d hd => (hds d hd).1, fun f hf => (hfs f hf).1, hclose.1⟩,
      fun d hd => (hds d hd).2, fun f hf => (hfs f hf).2, hclose.2⟩, by dsimp only; rw [heq], ?_⟩
    exact fun h => ⟨us, xs, rest, hvs' ▸ hws, hus, hxs, hend h.close⟩

/-! ## Programs without a gap -/

/-- The end of the program is the last token of the row and no other. -/
def Ended (ws : List Word) : Prop :=
  ∃ (us : List Word) (w : Word), ws = us ++ [w] ∧ w.kind = .eof ∧ ∀ u ∈ us, u.kind ≠ .eof

/-- Where the end of the program comes next, it is the last token, if it was not taken before. -/
theorem Ended.eq_singleton {us vs : List Word} (h : Ended (us ++ vs)) (hus : Kind.eof ∉ kinds us)
    (hvs : kindOf vs = .eof) : ∃ w, vs = [w] ∧ w.kind = .eof := by
  obtain ⟨xs, w, hrow, hw, hxs⟩ := h
  rcases List.eq_nil_or_concat vs with rfl | ⟨ys, v, rfl⟩
  · rw [List.append_nil] at hrow
    subst hrow
    simp [hw] at hus
  · rw [List.concat_eq_append, ← List.append_assoc] at hrow
    obtain ⟨rfl, hlast⟩ := List.append_inj' hrow rfl
    cases hlast
    cases ys with
    | nil => exact ⟨w, rfl, hw⟩
    | cons y ys => exact absurd hvs (hxs y (by simp))

/-- The declarations and functions of a program have neither the end in them nor an `invalid`
token. -/
theorem Program.not_mem_rows {p : Program} {us xs : List Word}
    (hus : RowSpells Decl.Spells p.decls us) (hxs : RowSpells Fn.Spells p.functions xs) {k : Kind}
    (hk : k = .eof ∨ k = .invalid) : k ∉ kinds (us ++ xs) := by
  rw [kinds_append]
  refine Derives.not_mem (.both (hus.derives fun _ _ => Decl.derives)
    (hxs.derives fun _ _ => Fn.derives)) hk ?_
  rcases hk with rfl | rfl <;> exact ⟨nofun, nofun⟩

/-- A program without a gap spells the tokens it was found for. -/
theorem Program.spells_ofWords (hrow : Row n ws) (hws : Ended ws) (h : (Program.ofWords ws).Whole) :
    (Program.ofWords ws).Spells ws := by
  obtain ⟨us, xs, rest, heq, hus, hxs, hend, hclose⟩ := (ofWords_row (z := []) hrow).2.2 h
  rw [heq, ← List.append_assoc] at hws
  obtain ⟨w, rfl, hw⟩ := hws.eq_singleton (not_mem_rows hus hxs (.inl rfl)) hend
  exact ⟨us, xs, w, heq, hus, hxs, hw, hclose⟩

/-- A program without a gap goes on to its end. -/
theorem Program.ended_ofWords {us : List Word} (hrow : Row n (us ++ [w]))
    (hus : ∀ u ∈ us, u.kind ≠ .eof) (hw : w.kind = .eof ∨ w.kind = .invalid)
    (h : (Program.ofWords (us ++ [w])).Whole) : Ended (us ++ [w]) := by
  rcases hw with hw | hw
  · exact ⟨us, w, rfl, hw, hus⟩
  obtain ⟨ys, xs, rest, heq, hys, hxs, hend, -⟩ := (ofWords_row (z := []) hrow).2.2 h
  -- the row has no end, so nothing is left behind the functions, and the last token is in them
  cases rest with
  | cons v rest =>
    have hv : v ∈ us ++ [w] := by rw [heq]; simp
    rcases List.mem_append.mp hv with hv | hv
    · exact absurd hend (hus v hv)
    · rw [List.mem_singleton.mp hv] at hend
      exact absurd (hend.symm.trans hw) (by decide)
  | nil =>
    rw [List.append_nil] at heq
    refine absurd ?_ (not_mem_rows hys hxs (.inr rfl))
    rw [← heq, kinds_append, ← hw]
    exact List.mem_append_right _ List.mem_cons_self

end

end TinyC.Syntax
