/-
Grammars for which follow sets are enough.

A grammar is SLR if no state of its automaton has two actions on an input symbol once rules
are reduced by only on what follows their left sides.  That is what pruning leaves of the
transitions, because a follow set holds exactly what follows: so for such a grammar nothing
is in conflict after pruning, the other passes have nothing to do, and the tables are those
of the textbooks whatever the priorities.  A grammar without conflicts to begin with is SLR,
and then its tables lose the reductions on symbols that do not follow.
-/
import ShiftReduce.Proofs.Automaton.FollowSets
import ShiftReduce.Proofs.Refinement.Inert
import ShiftReduce.Proofs.Table.LrTables

namespace ShiftReduce

namespace Grammar

/-- No state has two actions on an input symbol if rules are reduced by only on what follows
their left sides. -/
def IsSlr (g : Grammar) : Prop := Automaton.Deterministic g (.build g) g.FollowedBy

/-- An entry under a name, unless it is a reduction and the symbol with this name does not
follow the left side. -/
def IsFollowed (g : Grammar) : String × Action → Prop
  | (name, .reduce rule _ _) =>
      ∃ x, g.name? x = some name ∧ g.FollowedBy (g.leftOf (Handle.ofNat rule)) x
  | (_, .shift _) | (_, .accept) | (_, .lookahead _ _) => True

open Classical in
/-- The row without the reductions on symbols that do not follow. -/
noncomputable def followed (g : Grammar) (row : Row Action) : Row Action :=
  row.filter fun e => decide (g.IsFollowed e)

theorem ascending_followed (g : Grammar) {row : Row Action} (h : row.Ascending) :
    Row.Ascending (g.followed row) := h.filter _

theorem find?_followed (g : Grammar) {row : Row Action} (h : row.Ascending) {name : String}
    {entry : Action} : Row.find? (g.followed row) name = some entry ↔
      row.find? name = some entry ∧ g.IsFollowed (name, entry) := by
  classical
  rw [followed, h.find?_filter, decide_eq_true_iff]

end Grammar

namespace Automaton

variable {g : Grammar} {a b : Automaton}

namespace Canonical

variable (hc : Canonical g a) (wf : g.WellFormed)

include hc wf

/-- Where a rule is complete, what can come is what follows its left side. -/
theorem mem_firstWith_iff {item : Item} (hitem : item.rule.index < g.rules.length)
    (hend : item.atEnd g = true) (hrule : item.rule.index ≠ 0) {t : SymbolId} :
    t ∈ item.firstWith g (a.followTable g) ↔ g.FollowedBy (item.left g) t := by
  have hrest : item.rest g = [] := by
    rw [Item.rest, beq_iff_eq.mp hend, List.drop_length]
  have haccept : item.left g ≠ .accept := fun he => hrule ((wf.leftOf_eq_accept hitem).mp he)
  have hset : item.firstWith g (a.followTable g) = ∅ ∪ setAt (a.followTable g) (item.left g) := by
    simp only [Item.firstWith, hrest, if_neg haccept]
    rfl
  rw [hset, SymbolSet.mem_union, or_iff_right (SymbolSet.not_mem_empty t)]
  exact hc.mem_followTable_iff wf (wf.isNonterminal_leftOf hitem)

theorem isLive_iff {n : Nat} {s : State} (hs : a.states[n]? = some s) {t : Transition}
    (ht : t ∈ s.transitions) :
    Refinement.isLive (.make g a) t = .ok true ↔ Stays g a g.FollowedBy t := by
  obtain ⟨_, item, _, hitem, hposition, hprescribes⟩ := hc.prescribes_of_mem hs ht
  have hbelongs := hc.belongsTo wf hs item (List.mem_of_getElem? hposition)
  have hfirst : (Survey.make g a).firstSet t.origin = .ok (item.firstWith g (a.followTable g)) :=
    Survey.firstSet_eq_ok (v := .make g a) wf hitem hbelongs
  unfold Refinement.isLive Stays
  cases hm : t.move with
  | reduce l =>
    rw [hm] at hprescribes
    obtain ⟨hend, hrule⟩ := hprescribes.of_reduce
    have hmem := hc.mem_firstWith_iff wf hbelongs.1 hend hrule (t := t.symbol)
    rw [bind_eq_ok]
    constructor
    · rintro ⟨set, hset, hcontains⟩ _ item' _ hitem'
      obtain rfl := Except.ok.inj (hfirst.symm.trans hset)
      obtain rfl := Except.ok.inj (hitem.symm.trans hitem')
      exact hmem.mp (SymbolSet.contains_iff.mp (Except.ok.inj hcontains))
    · intro hstays
      have hcontains := SymbolSet.contains_iff.mpr (hmem.mpr (hstays l item rfl hitem))
      exact ⟨_, hfirst, congrArg Except.ok hcontains⟩
  | shift target l => exact ⟨fun _ _ _ hmove => (nomatch hmove), fun _ => rfl⟩
  | goto target => exact ⟨fun _ _ _ hmove => (nomatch hmove), fun _ => rfl⟩
  | accept => exact ⟨fun _ _ _ hmove => (nomatch hmove), fun _ => rfl⟩

/-- Pruning keeps the reductions on what follows. -/
theorem keeping_prune (hpruned : a.prune (.make g a) = .ok b) : Keeping g a g.FollowedBy b := by
  exact (reworked_prune hpruned).mono fun n s ts' hs hretain t => (mem_of_retain hretain).trans
    (and_congr_right fun ht => hc.isLive_iff wf hs ht)

/-- If pruning leaves no conflicts, it is all there is to refinement. -/
theorem refine_eq_prune (hpruned : a.prune (.make g a) = .ok b)
    (hdeterministic : Deterministic g a g.FollowedBy) :
    ∃ events, a.refine g = .ok (b, events) := by
  have h := hc.keeping_prune wf hpruned
  have hno : ∀ s ∈ b.states, ¬ State.Conflicting s.transitions := fun s hs =>
    h.not_conflicting hc wf hdeterministic hs
  have hany : ∀ s ∈ b.states, ∀ t ∈ s.transitions, t.lookahead = .any := fun s hs t ht =>
    h.any_lookahead hc hs ht
  have halive : ∀ s ∈ b.states, ∀ t ∈ s.transitions, t.lookahead.isDead = false := by
    intro s hs t ht
    rw [hany s hs t ht]
    rfl
  obtain ⟨looks, hahead⟩ := lookAhead_of_not_conflicting (v := .make g a) hno
  obtain ⟨events, hrefine⟩ :=
    refine_of_not_conflicting (Checked.survey_eq_ok wf a) hpruned hahead hno halive
  have hcompact : b.mapTransitions Refinement.compactTransitions = b :=
    mapTransitions_of_fixed fun s hs => Refinement.compact_of_any (hany s hs)
  rw [hcompact] at hrefine
  exact ⟨events, hrefine⟩

end Canonical

theorem acts_followedBy_iff (wf : g.WellFormed) {n : Nat} {x : SymbolId} {name : String}
    (hname : g.name? x = some name) {entry : Action} :
    Acts g a g.FollowedBy n x entry ↔
      Acts g a (fun _ _ => True) n x entry ∧ g.IsFollowed (name, entry) := by
  constructor
  · intro h
    refine ⟨h.mono fun _ _ _ => trivial, ?_⟩
    cases h with
    | shift _ _ => trivial
    | accept _ _ _ _ _ => trivial
    | @reduce s item _ _ _ _ _ hfollowed =>
      refine ⟨x, hname, ?_⟩
      rw [Handle.ofNat_index]
      exact hfollowed
  · rintro ⟨h, hfollowed⟩
    cases h with
    | shift hx hedge => exact .shift hx hedge
    | accept hs hitem hend hrule hx => exact .accept hs hitem hend hrule hx
    | reduce hs hitem hend hrule hx _ =>
      obtain ⟨y, hy, hfollowed⟩ := hfollowed
      rw [Handle.ofNat_index, wf.name?_injective hy hname] at hfollowed
      exact .reduce hs hitem hend hrule hx hfollowed

/-- Keeping the reductions on what follows takes the others out of the rows. -/
theorem LrTables.action_eq_map (wf : g.WellFormed) {action action' : List (Row Action)}
    {goto goto' : List (Row Nat)} (h : LrTables g a (fun _ _ => True) action goto)
    (h' : LrTables g a g.FollowedBy action' goto') : action' = action.map g.followed := by
  refine Row.ext_rows ?_ h'.ascending_action (fun row hrow => ?_)
    fun n row' row name entry hrow' hrow => ?_
  · rw [List.length_map, h.length_action, h'.length_action]
  · obtain ⟨row, hmem, rfl⟩ := List.mem_map.mp hrow
    exact g.ascending_followed (h.ascending_action row hmem)
  · rw [List.getElem?_map] at hrow
    obtain ⟨row, hn, rfl⟩ := Option.map_eq_some_iff.mp hrow
    have hascending := h.ascending_action row (List.mem_of_getElem? hn)
    rw [h'.action_iff n row' name entry hrow', g.find?_followed hascending,
      h.action_iff n row name entry hn]
    constructor
    · rintro ⟨x, hname, hacts⟩
      obtain ⟨hacts, hfollowed⟩ := (acts_followedBy_iff wf hname).mp hacts
      exact ⟨⟨x, hname, hacts⟩, hfollowed⟩
    · rintro ⟨⟨x, hname, hacts⟩, hfollowed⟩
      exact ⟨x, hname, (acts_followedBy_iff wf hname).mpr ⟨hacts, hfollowed⟩⟩

end Automaton

namespace Grammar

theorem IsSlr.exists_tables {g : Grammar} (wf : g.WellFormed)
    (hsize : (Automaton.build g).size < handleSpan) (h : g.IsSlr) :
    ∃ tables, g.tables .refined = .ok tables ∧
      Automaton.LrTables g (.build g) g.FollowedBy tables.action tables.goto := by
  have hc := wf.canonical hsize
  obtain ⟨pruned, _, _, _, _, _, hpruned, _⟩ := hc.exists_refine_ok wf
  obtain ⟨events, hrefine⟩ := hc.refine_eq_prune wf hpruned h
  have hkeeping := hc.keeping_prune wf hpruned
  have hcheck : pruned.check g = .ok () :=
    Automaton.check_eq_ok_iff.mpr fun s hs => hkeeping.not_conflicting hc wf h hs
  obtain ⟨tables, htables⟩ := (hkeeping.allGrounded hc wf).exists_tables_ok
  refine ⟨tables, ?_, hkeeping.lrTables hc wf hcheck htables⟩
  exact bind_eq_ok.mpr ⟨_, hrefine, bind_eq_ok.mpr ⟨(), hcheck, htables⟩⟩

/-- For an SLR grammar refinement gives the tables of the textbooks and no others.  If there
are tables without refinement, these are they but for the reductions on symbols that do not
follow the left side. -/
theorem refinedTables_slr {g : Grammar} (built : g.Built) (fits : g.Fits) :
    (g.IsSlr → ∃ tables, g.tables .refined = .ok tables ∧
      (∀ row ∈ tables.action, ∀ e ∈ row, e.2.isPlain = true) ∧
      ∀ action goto, Automaton.LrTables g (.build g) g.FollowedBy action goto ↔
        action = tables.action ∧ goto = tables.goto) ∧
    ∀ tables, g.tables .plain = .ok tables → ∃ tables', g.tables .refined = .ok tables' ∧
      tables'.goto = tables.goto ∧ tables'.action = tables.action.map g.followed := by
  have wf := built.wellFormed fits.symbols fits.rules
  have hc := wf.canonical fits.states
  refine ⟨fun hslr => ?_, fun tables htables => ?_⟩
  · obtain ⟨tables, htables, hlr⟩ := hslr.exists_tables wf fits.states
    refine ⟨tables, htables, fun row hrow e he => hlr.isPlain hrow he, fun action goto => ?_⟩
    refine ⟨fun h => h.unique hlr, ?_⟩
    rintro ⟨rfl, rfl⟩
    exact hlr
  · obtain ⟨_, hcheck, htables⟩ := bind_eq_ok.mp htables
    have hself := Automaton.keeping_self g (.build g)
    have hslr : g.IsSlr := (hself.deterministic_of_check hc wf hcheck).mono fun _ _ _ => trivial
    have hplain := hself.lrTables hc wf hcheck htables
    obtain ⟨tables', htables', hlr⟩ := hslr.exists_tables wf fits.states
    exact ⟨tables', htables', hlr.goto_eq hplain, hplain.action_eq_map wf hlr⟩

/-- Sums of terms, where a term alone is a sum as well. -/
def termSum : List Bnf.Definition :=
  [⟨"sum", [⟨[⟨"term", none⟩, ⟨"plus", none⟩, ⟨"sum", none⟩], 0⟩, ⟨[⟨"term", none⟩], 0⟩]⟩,
    ⟨"term", [⟨[⟨"x", none⟩], 0⟩]⟩]

/-- Two symbols and nothing else. -/
def doubled : List Bnf.Definition := [⟨"double", [⟨[⟨"x", none⟩, ⟨"x", none⟩], 0⟩]⟩]

/-- A term alone is a sum only where the input ends, so `termSum` is SLR although its plain
tables have a conflict.  The rule of `doubled` is complete only there too, so refinement
takes the reduction on `x` out of its plain tables. -/
theorem refinedTables_slr_termSum : ∃ (g h : Grammar) (tables plain refined : Tables),
    ofDefinitions termSum = .ok g ∧ (g.tables .plain).toOption.isNone = true ∧ g.IsSlr ∧
      g.tables .refined = .ok tables ∧
      Automaton.LrTables g (.build g) g.FollowedBy tables.action tables.goto ∧
      ofDefinitions doubled = .ok h ∧ h.tables .plain = .ok plain ∧
        h.tables .refined = .ok refined ∧ refined.action = plain.action.map h.followed ∧
          (plain.action? 3 "x").isSome = true ∧ (refined.action? 3 "x").isNone = true := by
  obtain ⟨g, hg, hall⟩ : ∃ g, ofDefinitions termSum = .ok g ∧
      decide (g.Fits ∧ (g.tables .plain).toOption.isNone = true ∧
        (((Automaton.build g).prune (.make g (.build g))).toOption.any fun pruned =>
          (pruned.check g).toOption.any fun _ => true) = true) = true :=
    exists_ok_of_any (by decide +kernel)
  obtain ⟨fits, hnone, hprune⟩ := of_decide_eq_true hall
  obtain ⟨pruned, hpruned, hcheck⟩ := exists_ok_of_any hprune
  obtain ⟨_, hcheck, _⟩ := exists_ok_of_any hcheck
  have built : g.Built := .ofDefinitions hg
  have wf := built.wellFormed fits.symbols fits.rules
  have hc := wf.canonical fits.states
  have hslr : g.IsSlr := (hc.keeping_prune wf hpruned).deterministic_of_check hc wf hcheck
  obtain ⟨tables, htables, _, hlr⟩ := (refinedTables_slr built fits).1 hslr
  obtain ⟨h, hh, hall⟩ : ∃ h, ofDefinitions doubled = .ok h ∧
      decide (h.Fits ∧ ((h.tables .plain).toOption.any fun plain =>
        (plain.action? 3 "x").isSome) = true ∧ ((h.tables .refined).toOption.any fun refined =>
          (refined.action? 3 "x").isNone) = true) = true :=
    exists_ok_of_any (by decide +kernel)
  obtain ⟨fits', hplain, hrefined⟩ := of_decide_eq_true hall
  obtain ⟨plain, hplain, hsome⟩ := exists_ok_of_any hplain
  obtain ⟨refined, hrefined, hgone⟩ := exists_ok_of_any hrefined
  obtain ⟨refined', hrefined', _, haction⟩ :=
    (refinedTables_slr (.ofDefinitions hh) fits').2 plain hplain
  obtain rfl := Except.ok.inj (hrefined.symm.trans hrefined')
  exact ⟨g, h, tables, plain, refined, hg, hnone, hslr, htables, (hlr _ _).mpr ⟨rfl, rfl⟩, hh,
    hplain, hrefined, haction, hsome, hgone⟩

end Grammar
end ShiftReduce
