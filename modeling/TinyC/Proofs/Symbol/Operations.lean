import TinyC.Proofs.Typing.Tables
import TinyC.Symbol.Workbench

/-!
# Operations on a table

A table of a workbench is changed by four operations: an entry is added, a slot is reserved for an
entry, an entry is inserted, or a slot is handed out. An operation is refused only where it would
put a second entry of a name into the table, and then nothing changes (`Workbench.stepped`).

The slots that a table hands out are different, so the entries that it has given a slot can be told
by their slots (`Workbench.Kept.seated`). Entries that are inserted only behind a reservation are
among them.
-/

namespace TinyC

/-- What is done to a table; entries go by the numbers under which they are shown. -/
inductive TableOp where
  | add (e : Int)
  | reserve (e : Int)
  | insert (e : Int)
  | next

/-- A name is taken if an entry has it. -/
theorem Table.has_eq_true_iff {α : Type} [Symbol α] {t : Table α} {x : String} :
    t.has x = true ↔ x ≠ "" ∧ ∃ a ∈ t.rows, Symbol.name a = x := by
  unfold has find?
  split
  · simp_all
  · simp_all [List.find?_isSome]

namespace TableOp

/-- The step of a workbench that an operation on a table is. -/
def run (t : Int) : TableOp → Bench Nat
  | add e => Workbench.add t e
  | reserve e => Workbench.reserve t e
  | insert e => Workbench.insert t e
  | next => Workbench.next t

/-- The operation hands out a slot. -/
def allots : TableOp → Bool
  | add _ | reserve _ | next => true
  | insert _ => false

/-- The operation puts an entry into the table. -/
def enters : TableOp → Bool
  | add _ | insert _ => true
  | reserve _ | next => false

/-- The number of the entry that the operation is about. -/
def given? : TableOp → Option Int
  | add e | reserve e | insert e => some e
  | next => none

end TableOp

namespace Workbench

/-- The index of the table shown under a number. -/
def tableShown? (w : Workbench) (t : Int) : Option Nat :=
  if 0 ≤ t then w.shownTables[t.toNat]? else none

/-- The index of the entry shown under a number. -/
def entryShown? (w : Workbench) (e : Int) : Option Nat :=
  if 0 ≤ e then w.shownEntries[e.toNat]? else none

/-- The index of the entry that an operation is about. -/
def subject? (w : Workbench) (op : TableOp) : Option Nat :=
  op.given?.bind w.entryShown?

/-- The entry that an operation puts into the table. -/
def entered? (w : Workbench) (op : TableOp) : Option EntryRef :=
  if op.enters then (w.subject? op).map w.refTo else none

def nameOf (w : Workbench) (i : Nat) : String :=
  (w.entryAt i).entry.name

def slotOf (w : Workbench) (i : Nat) : Nat :=
  (w.entryAt i).entry.slot

/-- The table at an index, without its fallback. -/
def tableOn (w : Workbench) (k : Nat) : Table EntryRef :=
  (w.tableAt k).table

def withTable (w : Workbench) (k : Nat) (table : Table EntryRef) : Workbench :=
  { w with tables := w.tables.modify k fun b => { b with table } }

def withSlot (w : Workbench) (i slot : Nat) : Workbench :=
  { w with entries := w.entries.modify i fun b => { b with entry := { b.entry with slot } } }

section

variable {w : Workbench} {t : Int} {k i : Nat} {e : Int}

/-- What is done behind something that was carried out. -/
theorem run_bind {α β : Type} {x : Bench α} {f : α → Bench β} {a : α} {w' : Workbench}
    (h : x.run.run w = (.ok a, w')) : (x >>= f).run.run w = (f a).run.run w' := by
  rw [ExceptT.run_bind, StateT.run_bind, h]
  rfl

theorem run_get (w : Workbench) : (get : Bench Workbench).run.run w = (.ok w, w) :=
  rfl

theorem run_tableOf (ht : w.tableShown? t = some k) : (tableOf t).run.run w = (.ok k, w) := by
  have hshown : (tableOf? t).run.run w = (.ok (some k), w) := ht ▸ rfl
  rw [tableOf, run_bind hshown]
  rfl

theorem run_entryOf (he : w.entryShown? e = some i) : (entryOf e).run.run w = (.ok i, w) := by
  unfold entryShown? at he
  rw [entryOf, run_bind (run_get w), he]
  rfl

theorem run_next (ht : w.tableShown? t = some k) : (next t).run.run w =
    (.ok (w.tableOn k).count, w.withTable k ⟨(w.tableOn k).rows, (w.tableOn k).count + 1⟩) := by
  rw [next, run_bind (run_tableOf ht)]
  rfl

theorem run_reserve (ht : w.tableShown? t = some k) (he : w.entryShown? e = some i) :
    (reserve t e).run.run w = (.ok (w.tableOn k).count,
      (w.withTable k ⟨(w.tableOn k).rows, (w.tableOn k).count + 1⟩).withSlot i
        (w.tableOn k).count) := by
  rw [reserve, run_bind (run_next ht), run_bind (run_entryOf (w := w.withTable _ _) he)]
  rfl

/-- The error for an entry whose name is taken. -/
def refusal (w : Workbench) (i : Nat) : BenchError :=
  .duplicate ⟨.duplicateDeclaration, (w.entryAt i).entry.pos.getD ⟨"", 0, 0, 0⟩,
    Text.quoted (w.nameOf i) ++ " is already declared"⟩

theorem run_insert (ht : w.tableShown? t = some k) (he : w.entryShown? e = some i) :
    (insert t e).run.run w =
      if (w.tableOn k).has (w.nameOf i) then (.error (w.refusal i), w)
      else (.ok (w.slotOf i),
        w.withTable k ⟨(w.tableOn k).rows ++ [w.refTo i], (w.tableOn k).count⟩) := by
  have hinsert : (w.tableAt k).table.insert? (w.refTo i) =
      if (w.tableOn k).has (w.nameOf i) then none else some ⟨(w.tableOn k).rows ++ [w.refTo i], (w.tableOn k).count⟩ := rfl
  rw [insert, run_bind (run_tableOf ht), run_bind (run_entryOf he), run_bind (run_get w),
    run_bind (run_get w), hinsert]
  cases (w.tableOn k).has (w.nameOf i) with
  | true => rfl
  | false => rfl

theorem run_addTo (w : Workbench) (k i : Nat) :
    (addTo k i).run.run w =
      if (w.tableOn k).has (w.nameOf i) then (.error (w.refusal i), w)
      else (.ok (w.tableOn k).count,
        (w.withTable k ⟨(w.tableOn k).rows ++ [w.refTo i], (w.tableOn k).count + 1⟩).withSlot i
          (w.tableOn k).count) := by
  have hadd : (w.tableAt k).table.add? (w.refTo i) = if (w.tableOn k).has (w.nameOf i) then none
      else some ⟨(w.tableOn k).rows ++ [w.refTo i], (w.tableOn k).count + 1⟩ := rfl
  rw [addTo, run_bind (run_get w), run_bind (run_get w), hadd]
  cases (w.tableOn k).has (w.nameOf i) with
  | true => rfl
  | false => rfl

theorem run_add (ht : w.tableShown? t = some k) (he : w.entryShown? e = some i) :
    (add t e).run.run w = (addTo k i).run.run w := by
  rw [add, run_bind (run_tableOf ht), run_bind (run_entryOf he)]

/-- The same numbers, names and links, and as many entries and tables. -/
structure Alike (w w' : Workbench) : Prop where
  shownEntries : w'.shownEntries = w.shownEntries
  shownTables : w'.shownTables = w.shownTables
  entries : w'.entries.size = w.entries.size
  tables : w'.tables.size = w.tables.size
  names : ∀ j, w'.nameOf j = w.nameOf j
  links : ∀ j, (w'.tableAt j).fallback = (w.tableAt j).fallback
  owned : ∀ j, (w'.entryAt j).params = (w.entryAt j).params ∧
    (w'.entryAt j).locals = (w.entryAt j).locals

theorem Alike.refl (w : Workbench) : w.Alike w :=
  ⟨rfl, rfl, rfl, rfl, fun _ => rfl, fun _ => rfl, fun _ => ⟨rfl, rfl⟩⟩

theorem alike_withTable (w : Workbench) (k : Nat) (table : Table EntryRef) :
    w.Alike (w.withTable k table) := by
  refine ⟨rfl, rfl, rfl, Array.size_modify, fun _ => rfl, fun j => ?_, fun _ => ⟨rfl, rfl⟩⟩
  simp only [tableAt, withTable, Array.getElem?_modify]
  split
  · cases w.tables[j]? <;> rfl
  · rfl

theorem tableOn_withTable (hk : k < w.tables.size) (table : Table EntryRef) :
    (w.withTable k table).tableOn k = table := by
  simp only [tableOn, tableAt, withTable, Array.getElem?_modify, if_true]
  rw [Array.getElem?_eq_getElem hk]
  rfl

theorem alike_withSlot (w : Workbench) (i slot' : Nat) : w.Alike (w.withSlot i slot') := by
  have hentry (j : Nat) : ∃ slot, (w.withSlot i slot').entryAt j
      = { w.entryAt j with entry := { (w.entryAt j).entry with slot } } := by
    simp only [entryAt, withSlot, Array.getElem?_modify]
    split
    · cases w.entries[j]? <;> exact ⟨_, rfl⟩
    · exact ⟨_, rfl⟩
  refine ⟨rfl, rfl, Array.size_modify, rfl, fun j => ?_, fun _ => rfl, fun j => ?_⟩
  · obtain ⟨slot, hj⟩ := hentry j
    rw [nameOf, hj]
    rfl
  · obtain ⟨slot, hj⟩ := hentry j
    rw [hj]
    exact ⟨rfl, rfl⟩

theorem slotOf_withSlot (hi : i < w.entries.size) (slot j : Nat) :
    (w.withSlot i slot).slotOf j = if i = j then slot else w.slotOf j := by
  simp only [slotOf, entryAt, withSlot, Array.getElem?_modify]
  split
  · rename_i heq
    subst heq
    rw [Array.getElem?_eq_getElem hi]
    rfl
  · rfl

theorem Alike.trans {w' w'' : Workbench} (h : w.Alike w') (h' : w'.Alike w'') : w.Alike w'' where
  shownEntries := h'.shownEntries.trans h.shownEntries
  shownTables := h'.shownTables.trans h.shownTables
  entries := h'.entries.trans h.entries
  tables := h'.tables.trans h.tables
  names j := (h'.names j).trans (h.names j)
  links j := (h'.links j).trans (h.links j)
  owned j := ⟨(h'.owned j).1.trans (h.owned j).1, (h'.owned j).2.trans (h.owned j).2⟩

/-- An operation on the table at an index has been carried out: the entry that it puts in had a
name that was not taken, and the slot that it hands out is the next one. -/
structure Done (k : Nat) (op : TableOp) (w w' : Workbench) : Prop where
  fresh : op.enters = true → ∀ i ∈ w.subject? op, (w.tableOn k).has (w.nameOf i) = false
  rows : (w'.tableOn k).rows = (w.tableOn k).rows ++ (w.entered? op).toList
  count : (w'.tableOn k).count = (w.tableOn k).count + if op.allots then 1 else 0
  slots : ∀ j, w'.slotOf j =
    if op.allots = true ∧ w.subject? op = some j then (w.tableOn k).count else w.slotOf j
  alike : w.Alike w'

theorem Done.of_withTable {op : TableOp} {table : Table EntryRef} (hk : k < w.tables.size)
    (hslot : op.allots = false ∨ w.subject? op = none)
    (hfresh : op.enters = true → ∀ i ∈ w.subject? op, (w.tableOn k).has (w.nameOf i) = false)
    (hrows : table.rows = (w.tableOn k).rows ++ (w.entered? op).toList)
    (hcount : table.count = (w.tableOn k).count + if op.allots then 1 else 0) :
    Done k op w (w.withTable k table) := by
  have htable := tableOn_withTable hk table
  refine ⟨hfresh, by rwa [htable], by rwa [htable], fun j => ?_, alike_withTable ..⟩
  have hnone : ¬(op.allots = true ∧ w.subject? op = some j) := by
    rintro ⟨hallots, hsubject⟩
    rcases hslot with hslot | hslot
    · rw [hslot] at hallots
      cases hallots
    · rw [hslot] at hsubject
      cases hsubject
  rw [if_neg hnone]
  rfl

theorem Done.of_withSlot {op : TableOp} {table : Table EntryRef} (hk : k < w.tables.size)
    (hallots : op.allots = true) (hsubject : w.subject? op = some i) (hi : i < w.entries.size)
    (hfresh : op.enters = true → (w.tableOn k).has (w.nameOf i) = false)
    (hrows : table.rows = (w.tableOn k).rows ++ (w.entered? op).toList)
    (hcount : table.count = (w.tableOn k).count + 1) :
    Done k op w ((w.withTable k table).withSlot i (w.tableOn k).count) := by
  have htable := tableOn_withTable hk table
  refine ⟨fun henters j hj => ?_, ?_, ?_, fun j => ?_,
    (alike_withTable ..).trans (alike_withSlot ..)⟩
  · cases hsubject.symm.trans hj
    exact hfresh henters
  · show ((w.withTable k table).tableOn k).rows = _
    rw [htable, hrows]
  · show ((w.withTable k table).tableOn k).count = _
    rw [htable, hcount, hallots]
    rfl
  · rw [slotOf_withSlot (w := w.withTable k table) hi, hallots, hsubject]
    simp only [Option.some.injEq, true_and]
    rfl

/-- The operation is known to the workbench: the entry that it is about is shown. -/
def Knows (w : Workbench) (op : TableOp) : Prop :=
  ∀ e, op.given? = some e → ∃ i, w.entryShown? e = some i ∧ i < w.entries.size

/-- **An operation is carried out, unless it puts in an entry whose name is taken**, and then
nothing changes. -/
theorem stepped {op : TableOp} (ht : w.tableShown? t = some k) (hk : k < w.tables.size)
    (hop : w.Knows op) :
    (∃ slot w', (op.run t).run.run w = (.ok slot, w') ∧ Done k op w w') ∨
      ∃ i, op.enters = true ∧ w.subject? op = some i ∧ (w.tableOn k).has (w.nameOf i) = true ∧
        (op.run t).run.run w = (.error (w.refusal i), w) := by
  cases op with
  | next =>
    exact .inl ⟨_, _, run_next ht, .of_withTable hk (.inr rfl) nofun (List.append_nil _).symm rfl⟩
  | reserve e =>
    obtain ⟨i, he, hi⟩ := hop e rfl
    exact .inl ⟨_, _, run_reserve ht he, .of_withSlot hk rfl he hi nofun
      (List.append_nil _).symm rfl⟩
  | insert e =>
    obtain ⟨i, he, -⟩ := hop e rfl
    have hsubject : w.subject? (.insert e) = some i := he
    have hrun := run_insert ht he
    cases hhas : (w.tableOn k).has (w.nameOf i) with
    | true =>
      rw [hhas, if_pos rfl] at hrun
      exact .inr ⟨i, rfl, he, hhas, hrun⟩
    | false =>
      rw [hhas, if_neg Bool.false_ne_true] at hrun
      refine .inl ⟨_, _, hrun, .of_withTable hk (.inl rfl) (fun _ j hj => ?_) ?_ rfl⟩
      · cases hsubject.symm.trans hj
        exact hhas
      · rw [entered?, hsubject]
        rfl
  | add e =>
    obtain ⟨i, he, hi⟩ := hop e rfl
    have hsubject : w.subject? (.add e) = some i := he
    have hrun := (run_add ht he).trans (run_addTo w k i)
    cases hhas : (w.tableOn k).has (w.nameOf i) with
    | true =>
      rw [hhas, if_pos rfl] at hrun
      exact .inr ⟨i, rfl, he, hhas, hrun⟩
    | false =>
      rw [hhas, if_neg Bool.false_ne_true] at hrun
      exact .inl ⟨_, _, hrun, .of_withSlot hk rfl he hi (fun _ => hhas)
        (by rw [entered?, hsubject]; rfl) rfl⟩

end

/-! ## Operations one after the other -/

/-- The workbench behind operations on a table, the newest of which comes first. An operation that
is refused is passed over. -/
def after (t : Int) (w : Workbench) : List TableOp → Workbench
  | [] => w
  | op :: before => ((op.run t).run.run (after t w before)).2

/-- The operations that have been carried out, the newest first. -/
def carried (t : Int) (w : Workbench) : List TableOp → List TableOp
  | [] => []
  | op :: before =>
    match ((op.run t).run.run (after t w before)).1 with
    | .ok _ => op :: carried t w before
    | .error _ => carried t w before

/-- Entries are inserted only behind a reservation. -/
def Ordered : List TableOp → Prop
  | [] => True
  | op :: before => (∀ e, op = .insert e → .reserve e ∈ before) ∧ Ordered before

/-- The entry has a slot of the table. -/
def Seated (t : Int) (w : Workbench) (ops : List TableOp) (i : Nat) : Prop :=
  ∃ op ∈ carried t w ops, op.allots = true ∧ w.subject? op = some i

/-- What holds of a table that was new, behind any operations. -/
structure Kept (t : Int) (k : Nat) (w : Workbench) (ops : List TableOp) : Prop where
  alike : w.Alike (after t w ops)
  rows : ((after t w ops).tableOn k).rows = ((carried t w ops).filterMap w.entered?).reverse
  count : ((after t w ops).tableOn k).count = (carried t w ops).countP TableOp.allots
  keyed : ((after t w ops).tableOn k).Keyed
  reserved : ∀ e, .reserve e ∈ ops → .reserve e ∈ carried t w ops
  slot_lt : ∀ i, Seated t w ops i → (after t w ops).slotOf i < ((after t w ops).tableOn k).count
  slot_ne : ∀ i j, Seated t w ops i → Seated t w ops j → i ≠ j →
    (after t w ops).slotOf i ≠ (after t w ops).slotOf j
  present : ∀ op ∈ carried t w ops, op.enters = true → ∀ i, w.subject? op = some i →
    Seated t w ops i

section

variable {t : Int} {k : Nat} {w : Workbench} {ops : List TableOp} {op : TableOp}

theorem entered?_eq_some {r : EntryRef} : w.entered? op = some r ↔
    op.enters = true ∧ ∃ i, w.subject? op = some i ∧ w.refTo i = r := by
  unfold entered?
  cases op.enters with
  | false => simp
  | true => simp

namespace Alike

variable {w' : Workbench} (h : w.Alike w')
include h

theorem tableShown? (t : Int) : w'.tableShown? t = w.tableShown? t := by
  rw [Workbench.tableShown?, Workbench.tableShown?, h.shownTables]

theorem subject? (op : TableOp) : w'.subject? op = w.subject? op := by
  have hshown : w'.entryShown? = w.entryShown? := by
    funext e
    rw [Workbench.entryShown?, Workbench.entryShown?, h.shownEntries]
  rw [Workbench.subject?, Workbench.subject?, hshown]

theorem knows (hop : w.Knows op) : w'.Knows op := by
  intro e he
  obtain ⟨i, hi, hlt⟩ := hop e he
  refine ⟨i, ?_, by rwa [h.entries]⟩
  rw [Workbench.entryShown?, h.shownEntries]
  exact hi

theorem entered? (op : TableOp) : w'.entered? op = w.entered? op := by
  have href : w'.refTo = w.refTo := by
    funext i
    exact congrArg (EntryRef.mk i) (h.names i)
  rw [Workbench.entered?, Workbench.entered?, h.subject?, href]

end Alike

theorem Kept.new (hnew : w.tableOn k = {}) : Kept t k w [] where
  alike := .refl w
  rows := congrArg Table.rows hnew
  count := congrArg Table.count hnew
  keyed := by
    show (w.tableOn k).Keyed
    rw [hnew]
    exact List.Pairwise.nil
  reserved := nofun
  slot_lt := nofun
  slot_ne := nofun
  present := nofun

/-- An operation that is carried out keeps what holds. -/
theorem Kept.done (h : Kept t k w ops) {slot : Nat} {w' : Workbench}
    (hrun : (op.run t).run.run (after t w ops) = (.ok slot, w'))
    (hdone : Done k op (after t w ops) w')
    (hinsert : ∀ e, op = .insert e → .reserve e ∈ ops) : Kept t k w (op :: ops) := by
  have hafter : after t w (op :: ops) = w' := by rw [after, hrun]
  have hcarried : carried t w (op :: ops) = op :: carried t w ops := by rw [carried, hrun]
  have hsubject := h.alike.subject? op
  have hcases {i : Nat} (hi : Seated t w (op :: ops) i) :
      (op.allots = true ∧ w.subject? op = some i) ∨ Seated t w ops i := by
    obtain ⟨op', hmem, hseats⟩ := hi
    rw [hcarried] at hmem
    rcases List.mem_cons.mp hmem with rfl | hmem
    · exact .inl hseats
    · exact .inr ⟨op', hmem, hseats⟩
  have hmore {i : Nat} (hi : Seated t w ops i) : Seated t w (op :: ops) i := by
    obtain ⟨op', hmem, hseats⟩ := hi
    exact ⟨op', hcarried ▸ List.mem_cons_of_mem op hmem, hseats⟩
  have hslots := hdone.slots
  rw [hsubject] at hslots
  refine
    { alike := hafter ▸ h.alike.trans hdone.alike, rows := ?_, count := ?_, keyed := ?_,
      reserved := ?_, slot_lt := ?_, slot_ne := ?_, present := ?_ }
  · rw [hafter, hcarried, hdone.rows, h.rows, h.alike.entered?, List.filterMap_cons]
    cases w.entered? op with
    | none => exact List.append_nil _
    | some r => exact List.reverse_cons.symm
  · rw [hafter, hcarried, List.countP_cons, ← h.count, hdone.count]
  · rw [hafter]
    show (w'.tableOn k).rows.Pairwise _
    rw [hdone.rows]
    cases hentered : (after t w ops).entered? op with
    | none =>
      rw [Option.toList_none, List.append_nil]
      exact h.keyed
    | some r =>
      obtain ⟨henters, i, hi, rfl⟩ := entered?_eq_some.mp hentered
      exact h.keyed.concat (hdone.fresh henters i hi) 0
  · intro e he
    rw [hcarried]
    rcases List.mem_cons.mp he with rfl | he
    · exact List.mem_cons_self
    · exact List.mem_cons_of_mem _ (h.reserved e he)
  · intro i hi
    rw [hafter, hslots, hdone.count]
    split
    · rename_i hnew
      rw [hnew.1]
      exact Nat.lt_succ_self _
    · rename_i hold
      have hlt := h.slot_lt i ((hcases hi).resolve_left hold)
      omega
  · intro i j hi hj hne
    rw [hafter, hslots, hslots]
    -- the slot that was handed out is above all others
    split <;> split
    · rename_i hi hj
      exact absurd (Option.some.inj (hi.2.symm.trans hj.2)) hne
    · rename_i hold
      exact (Nat.ne_of_lt (h.slot_lt j ((hcases hj).resolve_left hold))).symm
    · rename_i hold _
      exact Nat.ne_of_lt (h.slot_lt i ((hcases hi).resolve_left hold))
    · rename_i hi' hj'
      exact h.slot_ne i j ((hcases hi).resolve_left hi') ((hcases hj).resolve_left hj') hne
  · intro op' hmem henters i hi
    rw [hcarried] at hmem
    rcases List.mem_cons.mp hmem with rfl | hmem
    · cases op' with
      | add e => exact ⟨_, hcarried ▸ List.mem_cons_self, rfl, hi⟩
      | insert e =>
        exact hmore ⟨.reserve e, h.reserved e (hinsert e rfl), rfl, hi⟩
      | reserve e | next => cases henters
    · exact hmore (h.present op' hmem henters i hi)

theorem kept (ht : w.tableShown? t = some k) (hk : k < w.tables.size) (hnew : w.tableOn k = {})
    (hops : ∀ op ∈ ops, w.Knows op) (hordered : Ordered ops) : Kept t k w ops := by
  induction ops with
  | nil => exact .new hnew
  | cons op before ih =>
    obtain ⟨hop, hbefore⟩ := List.forall_mem_cons.mp hops
    have h := ih hbefore hordered.2
    have ht' := (h.alike.tableShown? t).trans ht
    have hk' : k < (after t w before).tables.size := by rwa [h.alike.tables]
    obtain ⟨slot, w', hrun, hdone⟩ | ⟨i, henters, -, -, hrun⟩ := stepped ht' hk' (h.alike.knows hop)
    · exact h.done hrun hdone hordered.1
    · have hafter : after t w (op :: before) = after t w before := by rw [after, hrun]
      have hcarried : carried t w (op :: before) = carried t w before := by rw [carried, hrun]
      have hseated : Seated t w (op :: before) = Seated t w before := by
        funext i
        rw [Seated, hcarried]
        rfl
      refine ⟨hafter ▸ h.alike, ?_, ?_, hafter ▸ h.keyed, fun e he => ?_, ?_, ?_, ?_⟩
      · rw [hafter, hcarried, h.rows]
      · rw [hafter, hcarried, h.count]
      · rw [hcarried]
        rcases List.mem_cons.mp he with rfl | he
        · cases henters
        · exact h.reserved e he
      · rw [hafter, hseated]
        exact h.slot_lt
      · rw [hafter, hseated]
        exact h.slot_ne
      · rw [hcarried, hseated]
        exact h.present

/-- An entry is found under its name, and no entry is found without one. -/
theorem Kept.findIn_eq_some (h : Kept t k w ops) {name : String} {i : Nat} :
    (after t w ops).findIn k name = some i ↔
      name ≠ "" ∧ ⟨i, name⟩ ∈ ((after t w ops).tableOn k).rows := by
  show (((after t w ops).tableOn k).find? name).map EntryRef.index = some i ↔ _
  constructor
  · intro hfound
    obtain ⟨⟨j, x⟩, hr, rfl⟩ := Option.map_eq_some_iff.mp hfound
    obtain ⟨hname, rfl, hmem⟩ := Table.find?_eq_some hr
    exact ⟨hname, hmem⟩
  · rintro ⟨hname, hmem⟩
    exact congrArg (Option.map EntryRef.index) (h.keyed.find? (a := ⟨i, name⟩) hmem hname)

/-- What is in the table was put there under its name, and has a slot of it. -/
theorem Kept.row (h : Kept t k w ops) {r : EntryRef} (hr : r ∈ ((after t w ops).tableOn k).rows) :
    r.name = (after t w ops).nameOf r.index ∧ Seated t w ops r.index := by
  rw [h.rows, List.mem_reverse, List.mem_filterMap] at hr
  obtain ⟨op, hop, hentered⟩ := hr
  obtain ⟨henters, i, hi, rfl⟩ := entered?_eq_some.mp hentered
  exact ⟨(h.alike.names i).symm, h.present op hop henters i hi⟩

/-- **A table keeps slots and names apart, whatever is done to it.** It has handed out as many
slots as operations that hand one out were carried out, and it holds what was put into it, in this
order. An operation fails exactly if it puts in an entry whose name is taken in this table, and
then nothing changes. -/
theorem tables_keep_slots_and_names_apart (ht : w.tableShown? t = some k) (hk : k < w.tables.size)
    (hnew : w.tableOn k = {}) (hops : ∀ op ∈ ops, w.Knows op) (hordered : Ordered ops) :
    let w' := after t w ops
    let rows := (w'.tableOn k).rows
    ((∀ r ∈ rows, w'.slotOf r.index < (w'.tableOn k).count) ∧
      ∀ r ∈ rows, ∀ r' ∈ rows, r.index ≠ r'.index → w'.slotOf r.index ≠ w'.slotOf r'.index) ∧
    (w'.tableOn k).count = (carried t w ops).countP TableOp.allots ∧
    rows = ((carried t w ops).filterMap w.entered?).reverse ∧
    ((∀ r ∈ rows, r.name = w'.nameOf r.index) ∧
      rows.Pairwise fun r r' => r.name = r'.name → r.name = "") ∧
    (∀ name, (∀ i, w'.findIn k name = some i ↔ name ≠ "" ∧ ⟨i, name⟩ ∈ rows) ∧
      (has t name).run.run w' = (.ok (w'.findIn k name).isSome, w') ∧
      (lookupLocal t name).run.run w' = (view? (w'.findIn k name)).run.run w') ∧
    ∀ op, w.Knows op →
      let e := (op.run t).run.run w'
      ((∃ error, e.1 = .error error) ↔ op.enters = true ∧ ∃ i, w.subject? op = some i ∧
        w'.nameOf i ≠ "" ∧ ∃ r ∈ rows, r.name = w'.nameOf i) ∧
      (∀ error, e.1 = .error error →
        e.2 = w' ∧ ∃ i, w.subject? op = some i ∧ error = w'.refusal i) ∧
      (op.enters = false → (e.2.tableOn k).rows = rows ∧
        ∀ name, e.2.findIn k name = w'.findIn k name) := by
  have h := kept ht hk hnew hops hordered
  have ht' := (h.alike.tableShown? t).trans ht
  have hk' : k < (after t w ops).tables.size := by rwa [h.alike.tables]
  refine ⟨⟨fun r hr => h.slot_lt _ (h.row hr).2, fun r hr r' hr' => ?_⟩, h.count, h.rows,
    ⟨fun r hr => (h.row hr).1, h.keyed⟩, fun name => ⟨fun i => h.findIn_eq_some, ?_, ?_⟩,
    fun op hop => ?_⟩
  · exact h.slot_ne _ _ (h.row hr).2 (h.row hr').2
  · rw [has, run_bind (run_tableOf ht')]
    rfl
  · rw [lookupLocal, run_bind (run_tableOf ht')]
    rfl
  · have hsubject := h.alike.subject? op
    obtain ⟨slot, w'', hrun, hdone⟩ | ⟨i, henters, hi, htaken, hrun⟩ :=
      stepped ht' hk' (h.alike.knows hop)
    · rw [hrun]
      refine ⟨⟨nofun, ?_⟩, nofun, fun henters => ?_⟩
      · rintro ⟨henters, i, hi, hname, hr⟩
        have hfresh := hdone.fresh henters i (hsubject.trans hi)
        rw [Table.has_eq_true_iff.mpr ⟨hname, hr⟩] at hfresh
        cases hfresh
      · have hrows := hdone.rows
        rw [entered?, if_neg (by rw [henters]; exact Bool.false_ne_true), Option.toList_none,
          List.append_nil] at hrows
        refine ⟨hrows, fun name => ?_⟩
        show ((w''.tableOn k).find? name).map _ = (((after t w ops).tableOn k).find? name).map _
        rw [Table.find?, Table.find?, hrows]
    · rw [hrun]
      rw [hsubject] at hi
      refine ⟨⟨fun _ => ?_, fun _ => ⟨_, rfl⟩⟩, fun error herror => ?_, fun hfalse => ?_⟩
      · obtain ⟨hname, hr⟩ := Table.has_eq_true_iff.mp htaken
        exact ⟨henters, i, hi, hname, hr⟩
      · cases herror
        exact ⟨rfl, i, hi, rfl⟩
      · rw [henters] at hfalse
        cases hfalse

end

/-- A workbench with a new table and three entries, two of which have the same name. -/
def trial : Workbench where
  entries := (["a", "b", "a"].map fun name => { entry := Entry.ofText name "" }).toArray
  tables := #[{}]
  shownEntries := #[0, 1, 2]
  shownTables := #[0]

/-- Operations on it, the newest first. The second entry is inserted behind its reservation, and the
third one is refused. -/
def trialOps : List TableOp :=
  [.insert 1, .add 2, .next, .reserve 1, .add 0]

theorem trial_keeps_slots_and_names_apart :
    let w := after 0 trial trialOps
    (w.tableOn 0).rows = [⟨0, "a"⟩, ⟨1, "b"⟩] ∧ (w.tableOn 0).count = 3 ∧
      w.slotOf 0 ≠ w.slotOf 1 ∧ w.findIn 0 "b" = some 1 := by
  have hknows : ∀ op ∈ trialOps, trial.Knows op := by
    intro op hop
    simp only [trialOps, List.mem_cons, List.not_mem_nil, or_false] at hop
    rcases hop with rfl | rfl | rfl | rfl | rfl <;> intro e he <;> cases he <;>
      exact ⟨_, rfl, by decide⟩
  obtain ⟨⟨-, hslots⟩, hcount, hrows, -, hfind, -⟩ := tables_keep_slots_and_names_apart
    (t := 0) (k := 0) rfl (by decide) rfl hknows (by simp [trialOps, Ordered])
  have hrows := hrows.trans (show _ = [⟨0, "a"⟩, ⟨1, "b"⟩] by decide +kernel)
  rw [hrows] at hslots hfind
  refine ⟨hrows, hcount.trans (by decide +kernel), ?_, ?_⟩
  · exact hslots ⟨0, "a"⟩ List.mem_cons_self ⟨1, "b"⟩ (by decide) (by decide)
  · exact ((hfind "b").1 1).mpr (by decide)

end Workbench

end TinyC
