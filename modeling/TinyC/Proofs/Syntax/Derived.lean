import TinyC.Proofs.Syntax.Spelling

/-!
# What can be derived is spelled

The grammar names the tokens of a phrase by their kinds. Where the values of literals are those of
their kinds, a row that can be derived from the grammar is the row of a tree: every rule makes a
tree for the whole from the trees for its phrases (`spelled_rule`). With `Program.derives`, the
grammar and the trees say the same.
-/

namespace TinyC.Syntax

/-- The value is one that a token of the kind can have: a literal has its own, and an identifier has
a name. -/
def Fits (k : Kind) (v : Value) : Prop :=
  match k with
  | .uintLiteral | .charLiteral => ∃ n, v = .int n
  | .doubleLiteral => ∃ b, v = .bits b
  | .stringLiteral => ∃ s, v = .text s
  | .ident => ∃ s, s ≠ "" ∧ v = .text s
  | _ => True

/-- The tokens of a phrase are those of a tree. -/
def Spelled : Category → List Word → Prop
  | .program, ws => ∃ p : Program, p.Spells ws
  | .declaration, ws => ∃ d : Decl, d.Spells ws
  | .function, ws => ∃ f : Fn, f.Spells ws
  | .params, ws => ∃ ps, ParamsSpell ps ws
  | .param, ws => ∃ p : Param, p.Spells ws
  | .type, ws => ∃ w type, ws = [w] ∧ variableType? w.kind = some type
  | .block, ws => ∃ b : Block, b.Spells ws
  | .ifStatement, ws => ∃ (w : Word) (us : List Word) (i : If), ws = w :: us ∧ w.kind = .ifKw ∧
    i.Spells us
  | .statement, ws | .whileStatement, ws | .returnStatement, ws | .breakStatement, ws
  | .continueStatement, ws | .identStatement, ws => ∃ s : Stmt, s.Spells ws
  | .condition, ws | .relational, ws => ∃ r : Relational, r.Spells ws
  | .relop, ws => ∃ w op, ws = [w] ∧ relOp? w.kind = some op
  | .expression, ws => ∃ e : Expr, e.Spells ws
  | .term, ws => ∃ t : Term, t.Spells ws
  | .factor, ws => ∃ f : Factor, f.Spells ws
  | .primary, ws | .literal, ws => ∃ p : Primary, p.Spells ws
  | .args, ws => ∀ r : Word, r.kind = .rParen → ∃ as : Args, as.Spells true (ws ++ [r])

/-- A word of one of the kinds that something is read from. -/
theorem exists_of_matches {α : Type} {f : Kind → Option α} {k : Kind} {ks : List Kind}
    {ws : List Word} (hks : (k :: ks).all (fun k => (f k).isSome) = true)
    (h : (Rule.oneOf (k :: ks)).Matches Spelled ws) : ∃ w a, ws = [w] ∧ f w.kind = some a := by
  obtain ⟨w, rfl, hw⟩ := Rule.matches_oneOf.mp h
  obtain ⟨a, ha⟩ := Option.isSome_iff_exists.mp (List.all_eq_true.mp hks _ hw)
  exact ⟨w, a, rfl, ha⟩

section

variable {ws : List Word} {parts : List (List Word)}

/-- What can be spelled with one part more can be spelled with any number of them. -/
theorem spelled_behind {α : Type} {S : α → List Word → Prop} {P : List Word → Prop}
    (hstep : ∀ a ws us, S a ws → P us → ∃ b, S b (ws ++ us)) {a : α} (ha : S a ws)
    (h : ∀ us ∈ parts, P us) : ∃ b, S b (ws ++ parts.flatten) := by
  induction parts generalizing a ws with
  | nil => exact ⟨a, by simpa using ha⟩
  | cons us parts ih =>
    obtain ⟨b, hb⟩ := hstep a ws us ha (h us List.mem_cons_self)
    obtain ⟨c, hc⟩ := ih hb fun us hus => h us (List.mem_cons_of_mem _ hus)
    exact ⟨c, by simpa using hc⟩

theorem spelled_sum {l : Expr} (hl : l.Spells ws)
    (h : ∀ us ∈ parts, (Rule.row [.oneOf [.plus, .minus], .phrase .term]).Matches Spelled us) :
    ∃ e : Expr, e.Spells (ws ++ parts.flatten) := by
  refine spelled_behind (fun l ws us hl hus => ?_) hl h
  obtain ⟨_, vs, rfl, hop, t, ht⟩ := hus
  obtain ⟨w, op, rfl, hw⟩ := exists_of_matches (f := sumOp?) rfl hop
  exact ⟨.sum l op t, ws, w, vs, rfl, hl, hw, ht⟩

theorem spelled_product {l : Term} (hl : l.Spells ws)
    (h : ∀ us ∈ parts, (Rule.row [.oneOf [.mul, .div], .phrase .factor]).Matches Spelled us) :
    ∃ t : Term, t.Spells (ws ++ parts.flatten) := by
  refine spelled_behind (fun l ws us hl hus => ?_) hl h
  obtain ⟨_, vs, rfl, hop, f, hf⟩ := hus
  obtain ⟨w, op, rfl, hw⟩ := exists_of_matches (f := productOp?) rfl hop
  exact ⟨.product l op f, ws, w, vs, rfl, hl, hw, hf⟩

theorem spelled_signs (h : ∀ us ∈ parts, (Rule.oneOf [.plus, .minus]).Matches Spelled us) :
    ∃ ss, SignsSpell ss parts.flatten := by
  induction parts with
  | nil => exact ⟨[], rfl⟩
  | cons us parts ih =>
    obtain ⟨w, rfl, hw⟩ := Rule.matches_oneOf.mp (h us List.mem_cons_self)
    obtain ⟨ss, hss⟩ := ih fun us hus => h us (List.mem_cons_of_mem _ hus)
    obtain ⟨minus, hminus⟩ : ∃ minus : Bool, w.kind = if minus then .minus else .plus := by
      simp only [List.mem_cons, List.not_mem_nil, or_false] at hw
      rcases hw with hw | hw
      · exact ⟨false, hw⟩
      · exact ⟨true, hw⟩
    exact ⟨minus :: ss, w, parts.flatten, rfl, hminus, hss⟩

theorem spelled_casts {c : Casted} (hc : c.Spells ws)
    (h : ∀ us ∈ parts, (Rule.row [.token .asKw, .oneOf [.intKw, .doubleKw]]).Matches Spelled us) :
    ∃ c : Casted, c.Spells (ws ++ parts.flatten) := by
  refine spelled_behind (fun c ws us hc hus => ?_) hc h
  obtain ⟨_, vs, rfl, ⟨w, rfl, hw⟩, htype⟩ := hus
  obtain ⟨v, type, rfl, hv⟩ := exists_of_matches (f := variableType?) rfl htype
  exact ⟨.cast c w.ord type, ws, w, v, rfl, hc, hw, rfl, hv⟩

/-- Arguments behind the first. -/
theorem spelled_args {r : Word} (hr : r.kind = .rParen)
    (h : ∀ us ∈ parts, (Rule.row [.token .comma, .phrase .expression]).Matches Spelled us) :
    ∃ as : Args, as.Spells false (parts.flatten ++ [r]) := by
  induction parts with
  | nil => exact ⟨.done r.ord, r, rfl, hr, rfl⟩
  | cons us parts ih =>
    obtain ⟨_, vs, rfl, ⟨c, rfl, hc⟩, e, he⟩ := h us List.mem_cons_self
    obtain ⟨as, has⟩ := ih fun us hus => h us (List.mem_cons_of_mem _ hus)
    exact ⟨.more e as, [c], vs, parts.flatten ++ [r], by simp, ⟨c, rfl, hc⟩, he, has⟩

/-- Parameters behind the first. -/
theorem spelled_params {p : Param} (hp : p.Spells ws)
    (h : ∀ us ∈ parts, (Rule.row [.token .comma, .phrase .param]).Matches Spelled us) :
    ∃ ps, ParamsSpell (p :: ps) (ws ++ parts.flatten) := by
  induction parts generalizing p ws with
  | nil =>
    rw [List.flatten_nil, List.append_nil]
    exact ⟨[], hp⟩
  | cons us parts ih =>
    obtain ⟨_, vs, rfl, ⟨c, rfl, hc⟩, q, hq⟩ := h us List.mem_cons_self
    obtain ⟨ps, hps⟩ := ih hq fun us hus => h us (List.mem_cons_of_mem _ hus)
    exact ⟨q :: ps, ws, c, vs ++ parts.flatten, by simp, hp, hc, hps⟩

theorem spelled_stmts {r : Word} (hr : r.kind = .rBrace) (h : ∀ us ∈ parts, Spelled .statement us) :
    ∃ ss : Stmts, ss.Spells (parts.flatten ++ [r]) := by
  induction parts with
  | nil => exact ⟨.done r.ord, r, rfl, hr, rfl⟩
  | cons us parts ih =>
    obtain ⟨s, hs⟩ := h us List.mem_cons_self
    obtain ⟨ss, hss⟩ := ih fun us hus => h us (List.mem_cons_of_mem _ hus)
    exact ⟨.more s ss, us, parts.flatten ++ [r], by simp, hs, hss⟩

theorem spelled_row {α : Type} {S : α → List Word → Prop} (h : ∀ us ∈ parts, ∃ a, S a us) :
    ∃ as, RowSpells S as parts.flatten := by
  induction parts with
  | nil => exact ⟨[], rfl⟩
  | cons us parts ih =>
    obtain ⟨a, ha⟩ := h us List.mem_cons_self
    obtain ⟨as, has⟩ := ih fun us hus => h us (List.mem_cons_of_mem _ hus)
    exact ⟨a :: as, us, parts.flatten, rfl, ha, has⟩

/-- The arguments of a call, if there are any, and the parenthesis behind them. -/
theorem spelled_arguments {r : Word} (hr : r.kind = .rParen)
    (h : (Rule.phrase .args).maybe.Matches Spelled ws) :
    ∃ as : Args, as.Spells true (ws ++ [r]) := by
  rcases h with h | h
  · exact h r hr
  · cases h
    exact ⟨.done r.ord, r, rfl, hr, rfl⟩

theorem spelled_comparison
    (h : (Rule.row [.phrase .expression,
      (Rule.row [.phrase .relop, .phrase .expression]).maybe]).Matches Spelled ws) :
    ∃ r : Relational, r.Spells ws := by
  obtain ⟨us, vs, rfl, ⟨l, hl⟩, h | h⟩ := h
  · obtain ⟨_, xs, rfl, ⟨w, op, rfl, hop⟩, r, hr⟩ := h
    exact ⟨.compare l op r, us, w, xs, rfl, hl, hop, hr⟩
  · cases h
    rw [List.append_nil]
    exact ⟨.value l, hl⟩

theorem spelled_declaration (h : (Category.rule .declaration).Matches Spelled ws) :
    ∃ d : Decl, d.Spells ws := by
  obtain ⟨_, _, rfl, hfirst, _, _, rfl, ⟨n, rfl, hn⟩, _, _, rfl, ⟨c, rfl, hc⟩, _, _, rfl,
    ⟨t, type, rfl, ht⟩, us, _, rfl, hinit, e, rfl, he⟩ := h
  obtain ⟨w, rfl, hw⟩ := Rule.matches_oneOf.mp hfirst
  obtain ⟨constant, hconstant⟩ : ∃ constant : Bool,
      w.kind = if constant then .constKw else .letKw := by
    simp only [List.mem_cons, List.not_mem_nil, or_false] at hw
    rcases hw with hw | hw
    · exact ⟨false, hw⟩
    · exact ⟨true, hw⟩
  obtain ⟨init, hinit⟩ : ∃ init, InitSpells init us := by
    rcases hinit with ⟨_, vs, rfl, ⟨a, rfl, ha⟩, i, hi⟩ | hinit
    · exact ⟨some i, a, vs, rfl, ha, hi⟩
    · exact ⟨none, hinit⟩
  exact ⟨.mk constant ⟨nameText n.value, n.ord⟩ type init (.word e.ord), w, n, c, t, us, e,
    by simp, hconstant, ⟨hn, rfl⟩, hc, ht, hinit, he, rfl⟩

theorem spelled_function (h : (Category.rule .function).Matches Spelled ws) :
    ∃ f : Fn, f.Spells ws := by
  obtain ⟨_, _, rfl, ⟨w, rfl, hw⟩, _, _, rfl, ⟨n, rfl, hn⟩, _, _, rfl, ⟨l, rfl, hl⟩, us, _, rfl,
    hps, _, _, rfl, ⟨r, rfl, hr⟩, _, _, rfl, ⟨a, rfl, ha⟩, _, vs, rfl, hresult, body, hbody⟩ := h
  obtain ⟨t, type, rfl, htype⟩ := exists_of_matches (f := resultType?) rfl hresult
  obtain ⟨ps, hps⟩ : ∃ ps : List Param, ps = [] ∧ us = [] ∨ ParamsSpell ps us := by
    rcases hps with ⟨ps, hps⟩ | hps
    · exact ⟨ps, .inr hps⟩
    · exact ⟨[], .inl ⟨rfl, hps⟩⟩
  exact ⟨.mk ⟨nameText n.value, n.ord⟩ ps (.ok (type, body)), w, n, l, us, r, a, t, vs,
    by simp, hw, ⟨hn, rfl⟩, hl, hps, hr, ha, htype, hbody⟩

theorem spelled_param (h : (Category.rule .param).Matches Spelled ws) :
    ∃ p : Param, p.Spells ws := by
  obtain ⟨us, _, rfl, hconst, _, _, rfl, ⟨n, rfl, hn⟩, _, _, rfl, ⟨c, rfl, hc⟩, t, type, rfl,
    ht⟩ := h
  obtain ⟨constant, hconstant⟩ : ∃ constant : Bool,
      if constant then ∃ w : Word, us = [w] ∧ w.kind = .constKw else us = [] := by
    rcases hconst with hconst | hconst
    · exact ⟨true, hconst⟩
    · exact ⟨false, hconst⟩
  exact ⟨⟨constant, ⟨nameText n.value, n.ord⟩, type⟩, us, n, c, t, by simp, hconstant, ⟨hn, rfl⟩,
    hc, ht⟩

theorem spelled_ifStatement (h : (Category.rule .ifStatement).Matches Spelled ws) :
    Spelled .ifStatement ws := by
  obtain ⟨_, _, rfl, ⟨w, rfl, hw⟩, us, _, rfl, ⟨cond, hcond⟩, vs, xs, rfl, ⟨body, hbody⟩, halt⟩ := h
  obtain ⟨alternative, halt⟩ : ∃ a : Else, a.Spells xs := by
    rcases halt with ⟨_, _, rfl, ⟨v, rfl, hv⟩, ⟨b, hb⟩ | ⟨k, ys, i, rfl, hk, hi⟩⟩ | halt
    · exact ⟨.block b, v, _, rfl, hv, hb⟩
    · exact ⟨.branch i, v, k, ys, rfl, hv, hk, hi⟩
    · exact ⟨.none, halt⟩
  exact ⟨w, us ++ (vs ++ xs), .mk cond body alternative, by simp, hw, us, vs, xs, rfl, hcond, hbody,
    halt⟩

theorem spelled_identStatement (h : (Category.rule .identStatement).Matches Spelled ws) :
    ∃ s : Stmt, s.Spells ws := by
  obtain ⟨_, _, rfl, ⟨w, rfl, hw⟩, _, _, rfl, hbody, e, rfl, he⟩ := h
  rcases hbody with ⟨_, _, rfl, ⟨l, rfl, hl⟩, us, _, rfl, hargs, r, rfl, hr⟩ |
    ⟨_, us, rfl, ⟨l, rfl, hl⟩, a, ha⟩
  · obtain ⟨as, has⟩ := spelled_arguments hr hargs
    exact ⟨.call ⟨nameText w.value, w.ord⟩ as (.word e.ord), w, l, us ++ [r], e, by simp,
      ⟨hw, rfl⟩, hl, has, he, rfl⟩
  · exact ⟨.assign ⟨nameText w.value, w.ord⟩ a (.word e.ord), w, l, us, e, by simp, ⟨hw, rfl⟩, hl,
      ha, he, rfl⟩

theorem spelled_statement (h : (Category.rule .statement).Matches Spelled ws) :
    ∃ s : Stmt, s.Spells ws := by
  rcases h with ⟨w, us, i, rfl, hw, hi⟩ | h | h | h | h | ⟨w, rfl, hw⟩ | h | ⟨d, hd⟩
  · exact ⟨.branch i, w, us, rfl, hw, hi⟩
  · exact h
  · exact h
  · exact h
  · exact h
  · exact ⟨.empty, w, rfl, hw⟩
  · exact h
  · exact ⟨.declare d, hd⟩

theorem spelled_returnStatement (h : (Category.rule .returnStatement).Matches Spelled ws) :
    ∃ s : Stmt, s.Spells ws := by
  obtain ⟨_, _, rfl, ⟨w, rfl, hw⟩, us, _, rfl, hvalue, e, rfl, he⟩ := h
  obtain ⟨value, hvalue⟩ : ∃ value, ValueSpells value us := by
    rcases hvalue with ⟨a, ha⟩ | hvalue
    · exact ⟨some a, ha⟩
    · exact ⟨none, hvalue⟩
  exact ⟨.ret w.ord value (.word e.ord), w, us, e, by simp, hw, rfl, hvalue, he, rfl⟩

theorem spelled_literal (hfits : ∀ w ∈ ws, Fits w.kind w.value)
    (h : (Category.rule .literal).Matches Spelled ws) : ∃ p : Primary, p.Spells ws := by
  obtain ⟨w, rfl, hw⟩ := Rule.matches_oneOf.mp h
  have hw' := hfits w List.mem_cons_self
  simp only [List.mem_cons, List.not_mem_nil, or_false] at hw
  rcases hw with hw | hw | hw | hw <;> simp only [Fits, hw] at hw'
  · obtain ⟨n, hn⟩ := hw'
    exact ⟨.int n.toUInt64 w.ord, w, n, rfl, .inl hw, hn, rfl, rfl⟩
  · obtain ⟨n, hn⟩ := hw'
    exact ⟨.int n.toUInt64 w.ord, w, n, rfl, .inr hw, hn, rfl, rfl⟩
  · obtain ⟨b, hb⟩ := hw'
    exact ⟨.double b w.ord, w, rfl, hw, hb, rfl⟩
  · obtain ⟨s, hs⟩ := hw'
    exact ⟨.text s w.ord, w, rfl, hw, hs, rfl⟩

theorem spelled_primary (h : (Category.rule .primary).Matches Spelled ws) :
    ∃ p : Primary, p.Spells ws := by
  rcases h with ⟨w, rfl, hw⟩ |
    ⟨_, _, rfl, ⟨w, rfl, hw⟩, _, _, rfl, ⟨l, rfl, hl⟩, us, _, rfl, hargs, r, rfl, hr⟩ | h |
    ⟨_, _, rfl, ⟨w, rfl, hw⟩, us, _, rfl, ⟨inner, hinner⟩, r, rfl, hr⟩
  · exact ⟨.name ⟨nameText w.value, w.ord⟩, w, rfl, hw, rfl⟩
  · obtain ⟨as, has⟩ := spelled_arguments hr hargs
    exact ⟨.call ⟨nameText w.value, w.ord⟩ as, w, l, us ++ [r], by simp, ⟨hw, rfl⟩, hl, has⟩
  · exact h
  · exact ⟨.paren w.ord inner (.word r.ord), w, us, r, by simp, hw, rfl, hinner, hr, rfl⟩

/-- Every rule hands trees on from its phrases to the whole. -/
theorem spelled_rule (c : Category) (hfits : ∀ w ∈ ws, Fits w.kind w.value)
    (h : c.rule.Matches Spelled ws) : Spelled c ws := by
  cases c with
  | program =>
    obtain ⟨_, _, rfl, ⟨ds, rfl, hds⟩, _, _, rfl, ⟨fs, rfl, hfs⟩, w, rfl, hw⟩ := h
    obtain ⟨decls, hdecls⟩ := spelled_row (S := Decl.Spells) hds
    obtain ⟨functions, hfunctions⟩ := spelled_row (S := Fn.Spells) hfs
    exact ⟨⟨decls, functions, .word w.ord⟩, _, _, w, rfl, hdecls, hfunctions, hw, rfl⟩
  | declaration => exact spelled_declaration h
  | function => exact spelled_function h
  | params =>
    obtain ⟨us, _, rfl, ⟨p, hp⟩, parts, rfl, hparts⟩ := h
    obtain ⟨ps, hps⟩ := spelled_params hp hparts
    exact ⟨p :: ps, hps⟩
  | param => exact spelled_param h
  | type => exact exists_of_matches rfl h
  | block =>
    obtain ⟨_, _, rfl, ⟨w, rfl, hw⟩, _, _, rfl, ⟨parts, rfl, hparts⟩, r, rfl, hr⟩ := h
    obtain ⟨ss, hss⟩ := spelled_stmts hr hparts
    exact ⟨.stmts ss, w, parts.flatten ++ [r], rfl, hw, hss⟩
  | statement => exact spelled_statement h
  | ifStatement => exact spelled_ifStatement h
  | whileStatement =>
    obtain ⟨_, _, rfl, ⟨w, rfl, hw⟩, us, vs, rfl, ⟨cond, hcond⟩, body, hbody⟩ := h
    exact ⟨.loop w.ord cond body, w, us, vs, rfl, hw, rfl, hcond, hbody⟩
  | returnStatement => exact spelled_returnStatement h
  | breakStatement =>
    obtain ⟨_, _, rfl, ⟨w, rfl, hw⟩, e, rfl, he⟩ := h
    exact ⟨.brk w.ord (.word e.ord), w, e, rfl, hw, rfl, he, rfl⟩
  | continueStatement =>
    obtain ⟨_, _, rfl, ⟨w, rfl, hw⟩, e, rfl, he⟩ := h
    exact ⟨.cont w.ord (.word e.ord), w, e, rfl, hw, rfl, he, rfl⟩
  | identStatement => exact spelled_identStatement h
  | condition => exact spelled_comparison h
  | relational => exact spelled_comparison h
  | relop => exact exists_of_matches rfl h
  | expression =>
    obtain ⟨us, _, rfl, ⟨t, ht⟩, parts, rfl, hparts⟩ := h
    exact spelled_sum (l := .term t) ht hparts
  | term =>
    obtain ⟨us, _, rfl, ⟨f, hf⟩, parts, rfl, hparts⟩ := h
    exact spelled_product (l := .factor f) hf hparts
  | factor =>
    obtain ⟨_, _, rfl, ⟨signs, rfl, hsigns⟩, vs, _, rfl, ⟨p, hp⟩, casts, rfl, hcasts⟩ := h
    obtain ⟨ss, hss⟩ := spelled_signs hsigns
    obtain ⟨c, hc⟩ := spelled_casts (c := .primary p) hp hcasts
    exact ⟨.mk _ ss c, _, _, rfl, hss, hc, rfl⟩
  | primary => exact spelled_primary h
  | literal => exact spelled_literal hfits h
  | args =>
    obtain ⟨us, _, rfl, ⟨e, he⟩, parts, rfl, hparts⟩ := h
    intro r hr
    obtain ⟨as, has⟩ := spelled_args hr hparts
    exact ⟨.more e as, [], us, parts.flatten ++ [r], by simp, rfl, he, has⟩

end

/-- What can be derived from the grammar is spelled by a program. -/
theorem Derives.spelled {ws : List Word} (h : Derives (.phrase .program) (kinds ws))
    (hfits : ∀ w ∈ ws, Fits w.kind w.value) : ∃ p : Program, p.Spells ws :=
  h.matches (P := Spelled) (fun c _ hfits hrule => spelled_rule c hfits hrule) ws rfl hfits

end TinyC.Syntax
