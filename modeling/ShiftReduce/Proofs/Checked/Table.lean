/-
Tables of a well-formed grammar are made without looking anything up in vain.

Wherever the tables of an automaton could be refused for want of an item or of a name, they are refused
by the function without checks as well.  What is left are the rules of items, and these are there if
all items belong to the grammar: then both functions are one (`tables_eq`).
-/
import ShiftReduce.Checked.Table
import ShiftReduce.Proofs.Checked.Item

namespace ShiftReduce
namespace Checked

variable {g : Grammar} (wf : g.WellFormed)

theorem name_eq (g : Grammar) (x : SymbolId) : name g x = Failure.orForeign (g.name? x) := by
  rw [name, symbol, Grammar.name?]
  cases g.symbol? x with
  | none => rfl
  | some s => rfl

include wf

theorem reduction_eq_ok {r : RuleId} (h : r.index < g.rules.length) :
    reduction g r = .ok (g.reduction r) := by
  obtain ⟨entry, hmem, hfound, hentry, hleft, hright, _⟩ := exists_rule_ok h
  have hnames : entry.right.mapM (name g) = .ok (entry.right.map g.nameOf) :=
    mapM_eq_ok_map fun x hx => name_eq_ok (wf.right_mem entry hmem x hx).1
  refine bind_eq_ok.mpr ⟨_, hentry, bind_eq_ok.mpr ⟨_, name_eq_ok (wf.left_lt hmem),
    bind_eq_ok.mpr ⟨_, hnames, bind_eq_ok.mpr ⟨_, renderRule_eq_ok wf hmem, ?_⟩⟩⟩⟩
  rw [Grammar.reduction, Grammar.bindingsOf, hfound, ← hleft, ← hright]
  rfl

section Automaton

variable {a : Automaton} (h : a.BelongsTo g)

include h

theorem action_eq (t : Transition) : action g a t = a.action? g t := by
  unfold action Automaton.action?
  cases t.move with
  | accept => rfl
  | shift target l => rfl
  | goto target => rfl
  | reduce l =>
    cases hitem : a.item t.origin with
    | error e => rfl
    | ok item =>
      obtain ⟨entry, hmem, hfound, hentry, hleft, _⟩ := exists_rule_ok (h.of_item hitem).1
      refine bind_eq_ok.mpr ⟨item, rfl, bind_eq_ok.mpr ⟨_, hentry,
        bind_eq_ok.mpr ⟨_, name_eq_ok (wf.left_lt hmem), ?_⟩⟩⟩
      rw [hleft, Grammar.bindingsOf, hfound]
      rfl

theorem addAction_eq (row : Row Action) (t : Transition) :
    addAction g a row t = a.addAction g row t := by
  rw [addAction, action_eq wf h, name_eq]
  rfl

theorem actionTable_eq : actionTable g a = a.actionTable g := by
  have hadd : addAction g a = a.addAction g := funext fun row => funext (addAction_eq wf h row)
  have hrow : actionRow g a = a.actionRow g := by
    funext s
    rw [actionRow, Automaton.actionRow, hadd]
  rw [actionTable, Automaton.actionTable, hrow]

theorem reductions_eq : reductions g a = a.reductions g := by
  rw [reductions, Automaton.reductions]
  cases hrules : a.reducedRules with
  | error e => rfl
  | ok rules =>
    refine mapM_eq_ok_map fun r hr => reduction_eq_ok wf ?_
    obtain ⟨items, hitems, hrules⟩ := bind_eq_ok.mp hrules
    cases hrules
    obtain ⟨item, hitem, rfl⟩ := List.mem_map.mp (List.mem_eraseDups.mp hr)
    obtain ⟨t, _, hitem⟩ := exists_mem_of_forall₂ (mapM_eq_ok.mp hitems).flip hitem
    exact (h.of_item hitem).1

theorem tables_eq : tables g a = a.tables g := by
  rw [tables, Automaton.tables, actionTable_eq wf h, reductions_eq wf h]

end Automaton

end Checked
end ShiftReduce
