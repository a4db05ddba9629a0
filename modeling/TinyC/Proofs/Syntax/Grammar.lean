import TinyC.Syntax.Tree

/-!
# The grammar

The grammar as it is written down: a table with one rule for each category, over the kinds of
tokens. A row of kinds belongs to a category if it can be derived from the rule (`Derives`).

A derivation is read from the leaves up (`Derives.matches`): what holds of the phrases that a rule
is made of, and passes through every rule of the table, holds of every phrase.
-/

namespace TinyC.Syntax

/-- The categories of the grammar. -/
inductive Category where
  | program
  | declaration
  | function
  | params
  | param
  | type
  | block
  | statement
  | ifStatement
  | whileStatement
  | returnStatement
  | breakStatement
  | continueStatement
  | identStatement
  | condition
  | relational
  | relop
  | expression
  | term
  | factor
  | primary
  | literal
  | args
  deriving Repr, DecidableEq

/-- What a category is made of. -/
inductive Rule where
  | token (k : Kind)
  | phrase (c : Category)
  | nothing
  | both (r s : Rule)
  | either (r s : Rule)
  /-- Any number of times, or not at all. -/
  | many (r : Rule)
  deriving Repr, DecidableEq

namespace Rule

/-- One behind the other. -/
def row : List Rule → Rule
  | [] => nothing
  | [r] => r
  | r :: rs => both r (row rs)

/-- One of these kinds of tokens. -/
def oneOf : List Kind → Rule
  | [] => nothing
  | [k] => token k
  | k :: ks => either (token k) (oneOf ks)

/-- Once or not at all. -/
def maybe (r : Rule) : Rule :=
  either r nothing

end Rule

open Rule in
/-- The grammar. -/
def Category.rule : Category → Rule
  -- program := declaration* function* EOF
  | program => row [many (phrase declaration), many (phrase function), token .eof]
  -- declaration := ('let' | 'const') IDENT ':' type ('=' expression)? ';'
  | declaration => row [oneOf [.letKw, .constKw], token .ident, token .colon, phrase type,
      maybe (row [token .assign, phrase expression]), token .semicolon]
  -- function := 'fn' IDENT '(' params? ')' '->' ('int' | 'double' | 'void') block
  | function => row [token .fnKw, token .ident, token .lParen, maybe (phrase params), token .rParen,
      token .arrow, oneOf [.intKw, .doubleKw, .voidKw], phrase block]
  -- params := param (',' param)*
  | params => row [phrase param, many (row [token .comma, phrase param])]
  -- param := 'const'? IDENT ':' type
  | param => row [maybe (token .constKw), token .ident, token .colon, phrase type]
  -- type := 'int' | 'double'
  | type => oneOf [.intKw, .doubleKw]
  -- block := '{' statement* '}'
  | block => row [token .lBrace, many (phrase statement), token .rBrace]
  -- statement := if | while | return | break | continue | ';' | ident-statement | declaration
  | statement => either (phrase ifStatement) (either (phrase whileStatement)
      (either (phrase returnStatement) (either (phrase breakStatement)
        (either (phrase continueStatement) (either (token .semicolon)
          (either (phrase identStatement) (phrase declaration)))))))
  -- if := 'if' condition block ('else' (block | if))?
  | ifStatement => row [token .ifKw, phrase condition, phrase block,
      maybe (row [token .elseKw, either (phrase block) (phrase ifStatement)])]
  -- while := 'while' condition block
  | whileStatement => row [token .whileKw, phrase condition, phrase block]
  -- return := 'return' expression? ';'
  | returnStatement => row [token .returnKw, maybe (phrase expression), token .semicolon]
  -- break := 'break' ';'
  | breakStatement => row [token .breakKw, token .semicolon]
  -- continue := 'continue' ';'
  | continueStatement => row [token .continueKw, token .semicolon]
  -- ident-statement := IDENT ( '(' args? ')' | '=' expression ) ';'
  | identStatement => row [token .ident,
      either (row [token .lParen, maybe (phrase args), token .rParen])
        (row [token .assign, phrase expression]), token .semicolon]
  -- condition := expression (relop expression)?
  | condition => row [phrase expression, maybe (row [phrase relop, phrase expression])]
  -- relational := expression (relop expression)?
  | relational => row [phrase expression, maybe (row [phrase relop, phrase expression])]
  | relop => oneOf [.lt, .le, .ge, .gt, .neq, .eq]
  -- expression := term (('+' | '-') term)*
  | expression => row [phrase term, many (row [oneOf [.plus, .minus], phrase term])]
  -- term := factor (('*' | '/') factor)*
  | term => row [phrase factor, many (row [oneOf [.mul, .div], phrase factor])]
  -- factor := ('+' | '-')* primary ('as' ('int' | 'double'))*
  | factor => row [many (oneOf [.plus, .minus]), phrase primary,
      many (row [token .asKw, oneOf [.intKw, .doubleKw]])]
  -- primary := IDENT | IDENT '(' args? ')' | literal | '(' relational ')'
  | primary => either (token .ident)
      (either (row [token .ident, token .lParen, maybe (phrase args), token .rParen])
        (either (phrase literal) (row [token .lParen, phrase relational, token .rParen])))
  | literal => oneOf [.uintLiteral, .charLiteral, .doubleLiteral, .stringLiteral]
  -- args := expression (',' expression)*
  | args => row [phrase expression, many (row [token .comma, phrase expression])]

/-- A row of kinds can be derived from a rule. -/
inductive Derives : Rule → List Kind → Prop where
  | token (k : Kind) : Derives (.token k) [k]
  | phrase {c : Category} {ks : List Kind} (h : Derives c.rule ks) : Derives (.phrase c) ks
  | nothing : Derives .nothing []
  | both {r s : Rule} {ks ls : List Kind} (hr : Derives r ks) (hs : Derives s ls) :
      Derives (.both r s) (ks ++ ls)
  | left {r s : Rule} {ks : List Kind} (h : Derives r ks) : Derives (.either r s) ks
  | right {r s : Rule} {ks : List Kind} (h : Derives s ks) : Derives (.either r s) ks
  | none {r : Rule} : Derives (.many r) []
  | more {r : Rule} {ks ls : List Kind} (h : Derives r ks) (hs : Derives (.many r) ls) :
      Derives (.many r) (ks ++ ls)

/-! ## Building derivations -/

namespace Derives

variable {r s : Rule} {rs : List Rule} {k : Kind} {ks ls : List Kind}

/-- A token and what is behind it. -/
theorem row_token (k : Kind) (hs : Derives (.row (s :: rs)) ls) :
    Derives (.row (.token k :: s :: rs)) (k :: ls) :=
  .both (.token k) hs

theorem oneOf {kinds : List Kind} (h : k ∈ kinds) : Derives (.oneOf kinds) [k] := by
  induction kinds with
  | nil => cases h
  | cons j kinds ih =>
    cases kinds with
    | nil =>
      cases List.mem_singleton.mp h
      exact .token k
    | cons i kinds =>
      rcases List.mem_cons.mp h with rfl | h
      · exact .left (.token k)
      · exact .right (ih h)

theorem some (h : Derives r ks) : Derives r.maybe ks :=
  .left h

theorem absent : Derives r.maybe [] :=
  .right .nothing

/-- One more at the end. -/
theorem many_append (h : Derives (.many r) ks) (hs : Derives r ls) :
    Derives (.many r) (ks ++ ls) := by
  generalize hm : Rule.many r = m at h
  induction h with
  | none =>
    cases hm
    simpa using more hs none
  | more first _ _ ih =>
    cases hm
    rw [List.append_assoc]
    exact .more first (ih rfl)
  | _ => cases hm

end Derives

/-! ## The end of a program -/

/-- The rule speaks neither of tokens of a kind nor of programs. -/
def Rule.Lacks (k : Kind) : Rule → Prop
  | .token j => j ≠ k
  | .phrase c => c ≠ .program
  | .nothing => True
  | .both r s => r.Lacks k ∧ s.Lacks k
  | .either r s => r.Lacks k ∧ s.Lacks k
  | .many r => r.Lacks k

theorem Category.lacks_rule {c : Category} (hc : c ≠ .program) {k : Kind}
    (hk : k = .eof ∨ k = .invalid) : c.rule.Lacks k := by
  rcases hk with rfl | rfl
  all_goals
    cases c with
    | program => exact absurd rfl hc
    | _ => simp [Category.rule, Rule.row, Rule.oneOf, Rule.maybe, Rule.Lacks]

/-- Only a program has an end, and no phrase has an `invalid` token. -/
theorem Derives.not_mem {r : Rule} {ks : List Kind} (h : Derives r ks) {k : Kind}
    (hk : k = .eof ∨ k = .invalid) (hr : r.Lacks k) : k ∉ ks := by
  induction h with
  | token j =>
    intro hk
    exact hr (List.mem_singleton.mp hk).symm
  | phrase _ ih => exact ih (Category.lacks_rule hr hk)
  | nothing => exact nofun
  | both _ _ ihr ihs =>
    intro hk
    rcases List.mem_append.mp hk with hk | hk
    · exact ihr hr.1 hk
    · exact ihs hr.2 hk
  | left _ ih => exact ih hr.1
  | right _ ih => exact ih hr.2
  | none => exact nofun
  | more _ _ ih ihs =>
    intro hk
    rcases List.mem_append.mp hk with hk | hk
    · exact ih hr hk
    · exact ihs hr hk

/-! ## Reading derivations -/

/-- The words can be cut up as a rule says, with `P` holding of the phrases that it names. -/
def Rule.Matches (P : Category → List Word → Prop) : Rule → List Word → Prop
  | .token k, ws => ∃ w, ws = [w] ∧ w.kind = k
  | .phrase c, ws => P c ws
  | .nothing, ws => ws = []
  | .both r s, ws => ∃ us vs, ws = us ++ vs ∧ r.Matches P us ∧ s.Matches P vs
  | .either r s, ws => r.Matches P ws ∨ s.Matches P ws
  | .many r, ws => ∃ parts : List (List Word), ws = parts.flatten ∧ ∀ us ∈ parts, r.Matches P us

/-- What every rule hands on from its phrases to the whole holds of all that is derived. -/
theorem Derives.matches {P : Category → List Word → Prop} {Q : Word → Prop}
    (hP : ∀ c ws, (∀ w ∈ ws, Q w) → c.rule.Matches P ws → P c ws) {r : Rule} {ks : List Kind}
    (h : Derives r ks) :
    ∀ ws : List Word, ws.map Word.kind = ks → (∀ w ∈ ws, Q w) → r.Matches P ws := by
  induction h with
  | token k =>
    intro ws hws _
    obtain ⟨w, hw, hk⟩ := List.map_eq_singleton_iff.mp hws
    exact ⟨w, hw, hk⟩
  | phrase _ ih =>
    intro ws hws hQ
    exact hP _ ws hQ (ih ws hws hQ)
  | nothing =>
    intro ws hws _
    exact List.map_eq_nil_iff.mp hws
  | both _ _ ihr ihs =>
    intro ws hws hQ
    obtain ⟨us, vs, rfl, hus, hvs⟩ := List.map_eq_append_iff.mp hws
    refine ⟨us, vs, rfl, ihr us hus fun w hw => ?_, ihs vs hvs fun w hw => ?_⟩
    · exact hQ w (List.mem_append_left vs hw)
    · exact hQ w (List.mem_append_right us hw)
  | left _ ih =>
    intro ws hws hQ
    exact .inl (ih ws hws hQ)
  | right _ ih =>
    intro ws hws hQ
    exact .inr (ih ws hws hQ)
  | none =>
    intro ws hws _
    exact ⟨[], List.map_eq_nil_iff.mp hws, nofun⟩
  | more _ _ ih ihs =>
    intro ws hws hQ
    obtain ⟨us, vs, rfl, hus, hvs⟩ := List.map_eq_append_iff.mp hws
    have hfirst := ih us hus fun w hw => hQ w (List.mem_append_left vs hw)
    obtain ⟨parts, rfl, hparts⟩ := ihs vs hvs fun w hw => hQ w (List.mem_append_right us hw)
    refine ⟨us :: parts, rfl, fun p hp => ?_⟩
    rcases List.mem_cons.mp hp with rfl | hp
    · exact hfirst
    · exact hparts p hp

theorem Rule.matches_oneOf {P : Category → List Word → Prop} {ws : List Word} {k : Kind}
    {kinds : List Kind} :
    (Rule.oneOf (k :: kinds)).Matches P ws ↔ ∃ w, ws = [w] ∧ w.kind ∈ k :: kinds := by
  induction kinds generalizing k with
  | nil =>
    simp only [List.mem_singleton]
    exact Iff.rfl
  | cons j kinds ih =>
    constructor
    · rintro (⟨w, rfl, hw⟩ | h)
      · exact ⟨w, rfl, hw ▸ List.mem_cons_self⟩
      · obtain ⟨w, rfl, hw⟩ := ih.mp h
        exact ⟨w, rfl, List.mem_cons_of_mem k hw⟩
    · rintro ⟨w, rfl, hw⟩
      rcases List.mem_cons.mp hw with hw | hw
      · exact .inl ⟨w, rfl, hw⟩
      · exact .inr (ih.mpr ⟨w, rfl, hw⟩)

end TinyC.Syntax
