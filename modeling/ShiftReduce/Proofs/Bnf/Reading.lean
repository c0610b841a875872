/-
The reader accepts exactly its grammar.

`Written` has definitions as they are written: the tokens of a definition are its name, the
delimiter, and alternatives with bars between them, and those of an alternative are its
symbols with a priority behind them, if it has one.  What a written definition says is a
relation, `Reads`, that does not look at what is around it.

Nothing marks the end of a definition, so the reader looks for where the next one begins.
That it stops at the right place is `readAlternative_tokens`: no symbol of an alternative is
taken for the name of a definition, since a delimiter would have to follow it, and none
does.  The same lemma makes the way in which tokens are put together unique, and
`read_eq_ok_iff` says both.
-/
import ShiftReduce.Bnf.Reader
import ShiftReduce.Proofs.Bnf.Token
import Mathlib.Data.List.Forall2

namespace ShiftReduce
namespace Bnf

/-! ## What is written -/

namespace Written

/-- An alternative as it is written. -/
structure Alternative where
  symbols : List String
  /-- What stands behind the `@` of its priority. -/
  level : Option (List Char)

/-- A definition as it is written, with one alternative at least. -/
structure Definition where
  name : String
  first : Alternative
  others : List Alternative

def Alternative.tokens (w : Alternative) : List String :=
  w.symbols ++ (w.level.map fun text => String.ofList ('@' :: text)).toList

/-- Alternatives behind the first, each with a bar in front. -/
def barred (ws : List Alternative) : List String := ws.flatMap fun w => bar :: w.tokens

theorem barred_cons (w : Alternative) (ws : List Alternative) :
    barred (w :: ws) = bar :: (w.tokens ++ barred ws) := List.flatMap_cons

def Definition.tokens (w : Definition) : List String :=
  w.name :: delimiter :: (w.first.tokens ++ barred w.others)

theorem Definition.tokens_append (w : Definition) (rest : List String) : w.tokens ++ rest =
    w.name :: delimiter :: (w.first.tokens ++ (barred w.others ++ rest)) := by
  rw [← List.append_assoc]
  rfl

/-- What a level says: without one the priority is 0. -/
inductive Level : Option (List Char) → Int → Prop
  | absent : Level none 0
  | given {text : List Char} {n : Int} : Numeral text n → Level (some text) n

/-- The token stands for a symbol. -/
structure IsSymbol (token : String) : Prop where
  ne_bar : token ≠ bar
  ne_delimiter : token ≠ delimiter
  not_priority : ¬ IsPriority token

/-- What is written is an alternative, and says this. -/
structure Alternative.Reads (w : Alternative) (a : Bnf.Alternative) : Prop where
  isSymbol : ∀ token ∈ w.symbols, IsSymbol token
  symbols : List.Forall₂ Occurrence.Reads w.symbols a.symbols
  priority : Level w.level a.priority

/-- What is written is a definition, and says this. -/
structure Definition.Reads (w : Definition) (d : Bnf.Definition) : Prop where
  ne_delimiter : w.name ≠ delimiter
  ne_bar : w.name ≠ bar
  name : d.name = w.name
  alternatives : List.Forall₂ Alternative.Reads (w.first :: w.others) d.alternatives

end Written

open Written

/-! ## Where an alternative ends -/

/-- An alternative that stops here was not cut short, and its last token is not the name of a
definition. -/
structure Closes (rest : List String) : Prop where
  ends : endsAlternative rest = true
  ne_delimiter : rest.head? ≠ some delimiter

theorem endsAlternative_cons_eq_false {token : String} {rest : List String} (h : token ≠ bar)
    (hrest : rest.head? ≠ some delimiter) : endsAlternative (token :: rest) = false := by
  have hstarts : startsDefinition (token :: rest) = false := by
    cases rest with
    | nil => rfl
    | cons second more => exact beq_eq_false_iff_ne.mpr fun e => hrest (congrArg some e)
  rw [endsAlternative, hstarts, beq_eq_false_iff_ne.mpr h]
  rfl

theorem closes_bar (rest : List String) : Closes (bar :: rest) where
  ends := by
    rw [endsAlternative, beq_self_eq_true]
    rfl
  ne_delimiter := by
    rw [List.head?_cons]
    decide

theorem closes_barred {others : List Written.Alternative} {rest : List String}
    (hrest : Closes rest) : Closes (barred others ++ rest) := by
  cases others with
  | nil => exact hrest
  | cons w more => exact closes_bar _

/-- A definition that stops here was not cut short. -/
structure ClosesDefinition (rest : List String) : Prop extends Closes rest where
  ne_bar : rest.head? ≠ some bar

theorem closesDefinition_tokens {ws : List Written.Definition} {ds : List Definition}
    (h : List.Forall₂ Definition.Reads ws ds) :
    ClosesDefinition (ws.flatMap Written.Definition.tokens) := by
  cases h with
  | nil => exact { ends := rfl, ne_delimiter := nofun, ne_bar := nofun }
  | @cons w d ws ds hread _ =>
    have hends : endsAlternative (w.tokens ++ ws.flatMap Written.Definition.tokens) = true := by
      show (_ || delimiter == delimiter) = true
      rw [beq_self_eq_true, Bool.or_true]
    refine { ends := hends, ne_delimiter := fun e => ?_, ne_bar := fun e => ?_ }
    · exact hread.ne_delimiter (Option.some.inj e)
    · exact hread.ne_bar (Option.some.inj e)

/-! ## What is written is read -/

theorem readAlternative_of_closes {rest : List String} (h : Closes rest) :
    readAlternative rest = .ok (⟨[], 0⟩, rest) := by
  cases rest with
  | nil => rw [readAlternative]
  | cons token more => rw [readAlternative, if_pos h.ends]

theorem level_ne {text : List Char} {token : String} (h : token.toList.head? ≠ some '@') :
    String.ofList ('@' :: text) ≠ token := by
  rintro rfl
  rw [String.toList_ofList] at h
  exact h rfl

theorem readAlternative_level {text : List Char} {n : Int} (h : Numeral text n)
    {rest : List String} (hrest : Closes rest) :
    readAlternative (String.ofList ('@' :: text) :: rest) = .ok (⟨[], n⟩, rest) := by
  have htoken : (String.ofList ('@' :: text)).toList = '@' :: text := String.toList_ofList
  have hbar : String.ofList ('@' :: text) ≠ bar := level_ne (by decide)
  have hdelimiter : String.ofList ('@' :: text) ≠ delimiter := level_ne (by decide)
  have hends := endsAlternative_cons_eq_false hbar hrest.ne_delimiter
  have hlevel := priorityText?_eq_some_iff.mpr ⟨h.ne_nil, htoken⟩
  rw [readAlternative, if_neg (by rw [hends]; exact Bool.false_ne_true), if_neg hdelimiter, hlevel]
  simp only [integer?_eq_some_iff.mpr h]
  rw [if_pos hrest.ends]

theorem readAlternative_symbol {token : String} (h : IsSymbol token) {o : Occurrence}
    (ho : Occurrence.Reads token o) {ts rest : List String} (hnext : ts.head? ≠ some delimiter)
    {symbols : List Occurrence} {priority : Int}
    (hts : readAlternative ts = .ok (⟨symbols, priority⟩, rest)) :
    readAlternative (token :: ts) = .ok (⟨o :: symbols, priority⟩, rest) := by
  have hends := endsAlternative_cons_eq_false h.ne_bar hnext
  have hlevel := priorityText?_eq_none_iff.mpr h.not_priority
  rw [readAlternative, if_neg (by rw [hends]; exact Bool.false_ne_true), if_neg h.ne_delimiter,
    hlevel, hts, Occurrence.reads_iff.mp ho]

/-- No alternative has a delimiter in front, nor has what is behind it. -/
theorem head?_tokens_ne_delimiter {w : Written.Alternative}
    (h : ∀ token ∈ w.symbols, IsSymbol token) {rest : List String} (hrest : Closes rest) :
    (w.tokens ++ rest).head? ≠ some delimiter := by
  obtain ⟨symbols, level⟩ := w
  cases symbols with
  | cons token more =>
    intro e
    exact (h token List.mem_cons_self).ne_delimiter (Option.some.inj e)
  | nil =>
    cases level with
    | none => exact hrest.ne_delimiter
    | some text =>
      intro e
      have hne : String.ofList ('@' :: text) ≠ delimiter := level_ne (by decide)
      exact hne (Option.some.inj e)

/-- What is written as an alternative is read to its end and no further. -/
theorem readAlternative_tokens {w : Written.Alternative} {a : Alternative} (h : w.Reads a)
    {rest : List String} (hrest : Closes rest) :
    readAlternative (w.tokens ++ rest) = .ok (a, rest) := by
  obtain ⟨tokens, level⟩ := w
  obtain ⟨symbols, priority⟩ := a
  obtain ⟨hsymbol, hreads, hlevel⟩ := h
  dsimp only at hsymbol hreads hlevel
  induction hreads with
  | nil =>
    cases hlevel with
    | absent => exact readAlternative_of_closes hrest
    | given hnumeral => exact readAlternative_level hnumeral hrest
  | @cons token o more symbols ho _ ih =>
    obtain ⟨htoken, hmore⟩ := List.forall_mem_cons.mp hsymbol
    have hnext := head?_tokens_ne_delimiter (w := ⟨more, level⟩) hmore hrest
    exact readAlternative_symbol htoken ho hnext (ih hmore)

theorem readAlternatives_last {ts rest : List String} {a : Alternative}
    (h : readAlternative ts = .ok (a, rest)) (hrest : rest.head? ≠ some bar) :
    readAlternatives ts = .ok ([a], rest) := by
  fun_cases readAlternatives ts with
  | case1 e he =>
    rw [h] at he
    cases he
  | case2 b hb =>
    rw [h] at hb
    cases hb
    rfl
  | case3 b more e he hb =>
    rw [h] at hb
    cases hb
    exact absurd rfl hrest
  | case4 b more as left hread hb =>
    rw [h] at hb
    cases hb
    exact absurd rfl hrest
  | case5 b token more hb hne =>
    rw [h] at hb
    cases hb
    rfl

theorem readAlternatives_bar {ts rest left : List String} {a : Alternative}
    {as : List Alternative} (h : readAlternative ts = .ok (a, bar :: rest))
    (hrest : readAlternatives rest = .ok (as, left)) :
    readAlternatives ts = .ok (a :: as, left) := by
  fun_cases readAlternatives ts with
  | case1 e he =>
    rw [h] at he
    cases he
  | case2 b hb =>
    rw [h] at hb
    cases hb
  | case3 b more e he hb =>
    rw [h] at hb
    cases hb
    rw [hrest] at he
    cases he
  | case4 b more bs left' hread hb =>
    rw [h] at hb
    cases hb
    rw [hrest] at hread
    cases hread
    rfl
  | case5 b token more hb hne =>
    rw [h] at hb
    cases hb
    exact absurd rfl hne

/-- Alternatives are read up to where the definition ends. -/
theorem readAlternatives_tokens {first : Written.Alternative} {a : Alternative}
    (hfirst : first.Reads a) {others : List Written.Alternative} {as : List Alternative}
    (hothers : List.Forall₂ Alternative.Reads others as) {rest : List String}
    (hrest : ClosesDefinition rest) :
    readAlternatives (first.tokens ++ (barred others ++ rest)) = .ok (a :: as, rest) := by
  induction hothers generalizing first a with
  | nil => exact readAlternatives_last (readAlternative_tokens hfirst hrest.toCloses) hrest.ne_bar
  | @cons w b others bs hw _ ih =>
    rw [barred_cons, List.cons_append, List.append_assoc]
    exact readAlternatives_bar (readAlternative_tokens hfirst (closes_bar _)) (ih hw)

theorem readDefinition_tokens {w : Written.Definition} {d : Definition} (h : w.Reads d)
    {rest : List String} (hrest : ClosesDefinition rest) :
    readDefinition (w.tokens ++ rest) = .ok (d, rest) := by
  obtain ⟨name, alternatives⟩ := d
  obtain ⟨hdelimiter, hbar, rfl, halternatives⟩ := h
  obtain ⟨a, as, hfirst, hothers, rfl⟩ := List.forall₂_cons_left_iff.mp halternatives
  rw [Written.Definition.tokens_append, readDefinition, if_neg (not_or.mpr ⟨hdelimiter, hbar⟩)]
  simp only [if_true, readAlternatives_tokens hfirst hothers hrest]

theorem readDefinitions_cons {ts rest : List String} {d : Definition} {ds : List Definition}
    (h : readDefinition ts = .ok (d, rest)) (hrest : readDefinitions rest = .ok ds) :
    readDefinitions ts = .ok (d :: ds) := by
  fun_cases readDefinitions ts with
  | case1 hnil =>
    rw [hnil] at h
    cases h
  | case2 hsome e he =>
    rw [h] at he
    cases he
  | case3 hsome d' rest' hd e he =>
    rw [h] at hd
    cases hd
    rw [hrest] at he
    cases he
  | case4 hsome d' rest' hd more hmore =>
    rw [h] at hd
    cases hd
    rw [hrest] at hmore
    cases hmore
    rfl

/-- What is written is read, with nothing left. -/
theorem readDefinitions_tokens {ws : List Written.Definition} {ds : List Definition}
    (h : List.Forall₂ Definition.Reads ws ds) :
    readDefinitions (ws.flatMap Written.Definition.tokens) = .ok ds := by
  induction h with
  | nil => rw [List.flatMap_nil, readDefinitions, if_pos rfl]
  | @cons w d ws ds hd hrest ih =>
    rw [List.flatMap_cons]
    exact readDefinitions_cons (readDefinition_tokens hd (closesDefinition_tokens hrest)) ih

/-! ## What is read is written -/

theorem exists_tokens_of_readAlternative {ts rest : List String} {a : Alternative}
    (h : readAlternative ts = .ok (a, rest)) :
    ∃ w : Written.Alternative, ts = w.tokens ++ rest ∧ w.Reads a := by
  have hempty : ∀ ts : List String, ts = Alternative.tokens ⟨[], none⟩ ++ ts ∧
      Alternative.Reads ⟨[], none⟩ ⟨[], 0⟩ :=
    fun _ => ⟨rfl, { isSymbol := List.forall_mem_nil _, symbols := .nil, priority := .absent }⟩
  induction ts generalizing a rest with
  | nil =>
    rw [readAlternative] at h
    cases h
    exact ⟨_, hempty []⟩
  | cons token ts ih =>
    rw [readAlternative] at h
    split at h
    · cases h
      exact ⟨_, hempty _⟩
    · rename_i hends
      have hbar : token ≠ bar := by
        rintro rfl
        rw [(closes_bar ts).ends] at hends
        exact hends rfl
      split at h
      · cases h
      · rename_i hdelimiter
        split at h
        · rename_i text hlevel
          obtain ⟨_, htoken⟩ := priorityText?_eq_some_iff.mp hlevel
          split at h
          · cases h
          · rename_i n hn
            split at h
            · cases h
              refine ⟨⟨[], some text⟩, ?_, ?_⟩
              · show token :: ts = String.ofList ('@' :: text) :: ts
                rw [← htoken, String.ofList_toList]
              · exact
                  { isSymbol := List.forall_mem_nil _
                    symbols := .nil
                    priority := .given (integer?_eq_some_iff.mp hn) }
            · cases h
        · rename_i hlevel
          split at h
          · cases h
          · rename_i tail left htail
            cases h
            obtain ⟨w, rfl, hw⟩ := ih htail
            refine ⟨⟨token :: w.symbols, w.level⟩, rfl, ?_⟩
            exact
              { isSymbol := List.forall_mem_cons.mpr
                  ⟨⟨hbar, hdelimiter, priorityText?_eq_none_iff.mp hlevel⟩, hw.isSymbol⟩
                symbols := .cons (Occurrence.reads_iff.mpr rfl) hw.symbols
                priority := hw.priority }

theorem exists_tokens_of_readAlternatives {ts rest : List String} {as : List Alternative}
    (h : readAlternatives ts = .ok (as, rest)) :
    ∃ (first : Written.Alternative) (others : List Written.Alternative),
      ts = first.tokens ++ (barred others ++ rest) ∧
        List.Forall₂ Alternative.Reads (first :: others) as := by
  have hlast : ∀ {ts rest : List String} {a : Alternative}, readAlternative ts = .ok (a, rest) →
      ∃ (first : Written.Alternative) (others : List Written.Alternative),
        ts = first.tokens ++ (barred others ++ rest) ∧
          List.Forall₂ Alternative.Reads (first :: others) [a] := by
    intro ts rest a h
    obtain ⟨w, rfl, hw⟩ := exists_tokens_of_readAlternative h
    exact ⟨w, [], rfl, .cons hw .nil⟩
  fun_induction readAlternatives ts generalizing as rest with
  | case1 => cases h
  | case2 ts a ha =>
    cases h
    exact hlast ha
  | case3 => cases h
  | case4 ts a more as left hread ha ih =>
    cases h
    obtain ⟨w, rfl, hw⟩ := exists_tokens_of_readAlternative ha
    obtain ⟨first, others, rfl, hothers⟩ := ih hread
    refine ⟨w, first :: others, ?_, .cons hw hothers⟩
    rw [barred_cons, List.cons_append, List.append_assoc]
  | case5 ts a token more ha hne =>
    cases h
    exact hlast ha

theorem exists_tokens_of_readDefinition {ts rest : List String} {d : Definition}
    (h : readDefinition ts = .ok (d, rest)) :
    ∃ w : Written.Definition, ts = w.tokens ++ rest ∧ w.Reads d := by
  unfold readDefinition at h
  split at h
  · cases h
  · rename_i name ts
    split at h
    · cases h
    · rename_i hname
      obtain ⟨hdelimiter, hbar⟩ := not_or.mp hname
      split at h
      · cases h
      · split at h
        · rename_i second more hsecond
          split at h
          · cases h
          · rename_i alternatives left hread
            cases h
            obtain ⟨first, others, rfl, hreads⟩ := exists_tokens_of_readAlternatives hread
            refine ⟨⟨name, first, others⟩, ?_, ⟨hdelimiter, hbar, rfl, hreads⟩⟩
            rw [hsecond, Written.Definition.tokens_append]
        · cases h

theorem exists_tokens_of_readDefinitions {ts : List String} {ds : List Definition}
    (h : readDefinitions ts = .ok ds) : ∃ ws : List Written.Definition,
      ws.flatMap Written.Definition.tokens = ts ∧ List.Forall₂ Definition.Reads ws ds := by
  fun_induction readDefinitions ts generalizing ds with
  | case1 =>
    cases h
    exact ⟨[], rfl, .nil⟩
  | case2 => cases h
  | case3 => cases h
  | case4 ts hsome d rest hd more hmore ih =>
    cases h
    obtain ⟨w, rfl, hw⟩ := exists_tokens_of_readDefinition hd
    obtain ⟨ws, rfl, hws⟩ := ih hmore
    exact ⟨w :: ws, rfl, .cons hw hws⟩

/-! ## There is one way to put tokens together -/

/-- A priority is no symbol, so it is clear which tokens of an alternative are its symbols. -/
theorem filter_tokens {w : Written.Alternative} {a : Alternative} (h : w.Reads a) :
    w.tokens.filter (fun token => (priorityText? token).isNone) = w.symbols := by
  have hsymbols : w.symbols.filter (fun token => (priorityText? token).isNone) = w.symbols := by
    refine List.filter_eq_self.mpr fun token htoken => ?_
    rw [priorityText?_eq_none_iff.mpr (h.isSymbol token htoken).not_priority]
    rfl
  rw [Written.Alternative.tokens, List.filter_append, hsymbols]
  have hpriority := h.priority
  cases hlevel : w.level with
  | none => exact List.append_nil _
  | some text =>
    rw [hlevel] at hpriority
    cases hpriority with
    | given hnumeral =>
      have htext := priorityText?_eq_some_iff.mpr ⟨hnumeral.ne_nil, String.toList_ofList⟩
      rw [Option.map_some, Option.toList_some, List.filter_cons, htext]
      exact List.append_nil _

theorem eq_of_tokens {w w' : Written.Alternative} {a a' : Alternative} (h : w.Reads a)
    (h' : w'.Reads a') (htokens : w.tokens = w'.tokens) : w = w' := by
  have hsymbols : w.symbols = w'.symbols := by
    rw [← filter_tokens h, htokens, filter_tokens h']
  have hinjective : Function.Injective fun text => String.ofList ('@' :: text) := fun _ _ e =>
    (List.cons.inj (String.ofList_injective e)).2
  rw [Written.Alternative.tokens, Written.Alternative.tokens, hsymbols] at htokens
  have hlevel := congrArg List.head? (List.append_cancel_left htokens)
  rw [Option.head?_toList, Option.head?_toList] at hlevel
  obtain ⟨symbols, level⟩ := w
  obtain ⟨symbols', level'⟩ := w'
  obtain rfl : symbols = symbols' := hsymbols
  obtain rfl : level = level' := Option.map_injective hinjective hlevel
  rfl

/-- The reader finds where an alternative ends, and there is one such place. -/
theorem alternative_unique {w w' : Written.Alternative} {a a' : Alternative} (h : w.Reads a)
    (h' : w'.Reads a') {rest rest' : List String} (hrest : Closes rest) (hrest' : Closes rest')
    (htokens : w.tokens ++ rest = w'.tokens ++ rest') : w = w' ∧ rest = rest' := by
  have hread := readAlternative_tokens h hrest
  rw [htokens, readAlternative_tokens h' hrest'] at hread
  have hleft : rest' = rest := congrArg Prod.snd (Except.ok.inj hread)
  subst hleft
  exact ⟨eq_of_tokens h h' (List.append_cancel_right htokens), rfl⟩

theorem alternatives_unique {first first' : Written.Alternative} {a a' : Alternative}
    (hfirst : first.Reads a) (hfirst' : first'.Reads a') {others others' : List Written.Alternative}
    {as as' : List Alternative} (hothers : List.Forall₂ Alternative.Reads others as)
    (hothers' : List.Forall₂ Alternative.Reads others' as') {rest rest' : List String}
    (hrest : ClosesDefinition rest) (hrest' : ClosesDefinition rest')
    (htokens : first.tokens ++ (barred others ++ rest) =
      first'.tokens ++ (barred others' ++ rest')) :
    first = first' ∧ others = others' ∧ rest = rest' := by
  induction hothers generalizing first first' a a' others' as' with
  | nil =>
    obtain ⟨rfl, hleft⟩ := alternative_unique hfirst hfirst' hrest.toCloses
      (closes_barred hrest'.toCloses) htokens
    cases hothers' with
    | nil => exact ⟨rfl, rfl, hleft⟩
    | cons _ _ => exact absurd (congrArg List.head? hleft) hrest.ne_bar
  | @cons w b others bs hw hothers ih =>
    obtain ⟨rfl, hleft⟩ := alternative_unique hfirst hfirst' (closes_barred hrest.toCloses)
      (closes_barred hrest'.toCloses) htokens
    cases hothers' with
    | nil => exact absurd (congrArg List.head? hleft.symm) hrest'.ne_bar
    | @cons w' b' others' bs' hw' hothers' =>
      rw [barred_cons, barred_cons, List.cons_append, List.cons_append, List.append_assoc,
        List.append_assoc] at hleft
      obtain ⟨rfl, rfl, hend⟩ := ih hw hw' hothers' (List.cons.inj hleft).2
      exact ⟨rfl, rfl, hend⟩

theorem definition_unique {w w' : Written.Definition} {d d' : Definition} (h : w.Reads d)
    (h' : w'.Reads d') {rest rest' : List String} (hrest : ClosesDefinition rest)
    (hrest' : ClosesDefinition rest') (htokens : w.tokens ++ rest = w'.tokens ++ rest') :
    w = w' ∧ rest = rest' := by
  rw [Written.Definition.tokens_append, Written.Definition.tokens_append] at htokens
  obtain ⟨hname, htokens⟩ := List.cons.inj htokens
  have htokens := (List.cons.inj htokens).2
  obtain ⟨a, as, hfirst, hothers, _⟩ := List.forall₂_cons_left_iff.mp h.alternatives
  obtain ⟨a', as', hfirst', hothers', _⟩ := List.forall₂_cons_left_iff.mp h'.alternatives
  obtain ⟨hsame, hmore, hleft⟩ :=
    alternatives_unique hfirst hfirst' hothers hothers' hrest hrest' htokens
  obtain ⟨name, first, others⟩ := w
  obtain ⟨name', first', others'⟩ := w'
  obtain rfl : name = name' := hname
  obtain rfl : first = first' := hsame
  obtain rfl : others = others' := hmore
  exact ⟨rfl, hleft⟩

theorem definitions_unique {ws ws' : List Written.Definition} {ds ds' : List Definition}
    (h : List.Forall₂ Definition.Reads ws ds) (h' : List.Forall₂ Definition.Reads ws' ds')
    (htokens : ws.flatMap Written.Definition.tokens = ws'.flatMap Written.Definition.tokens) :
    ws = ws' := by
  induction h generalizing ws' ds' with
  | nil =>
    cases h' with
    | nil => rfl
    | cons _ _ => cases htokens
  | @cons w d ws ds hw hrest ih =>
    cases h' with
    | nil => cases htokens
    | @cons w' d' ws' ds' hw' hrest' =>
      rw [List.flatMap_cons, List.flatMap_cons] at htokens
      obtain ⟨rfl, hleft⟩ := definition_unique hw hw' (closesDefinition_tokens hrest)
        (closesDefinition_tokens hrest') htokens
      rw [ih hrest' hleft]

/-! ## The reader -/

/-- The tokens are put together of these written definitions, which say this. -/
structure Decomposes (tokens : List String) (ws : List Written.Definition)
    (ds : List Definition) : Prop where
  tokens_eq : ws.flatMap Written.Definition.tokens = tokens
  reads : List.Forall₂ Definition.Reads ws ds

theorem readDefinitions_eq_ok_iff {ts : List String} {ds : List Definition} :
    readDefinitions ts = .ok ds ↔ ∃ ws, Decomposes ts ws ds := by
  constructor
  · intro h
    obtain ⟨ws, htokens, hreads⟩ := exists_tokens_of_readDefinitions h
    exact ⟨ws, htokens, hreads⟩
  · rintro ⟨ws, rfl, hreads⟩
    exact readDefinitions_tokens hreads

/-- A text is read exactly if its words are put together of written definitions, and then as
what these say.  They can be put together in one way only.  Every other text is refused. -/
theorem read_eq_ok_iff (text : String) :
    (∀ ds, read text = .ok ds ↔ ∃ ws, Decomposes (uncommented text) ws ds) ∧
      (∀ ws ws' ds ds', Decomposes (uncommented text) ws ds →
        Decomposes (uncommented text) ws' ds' → ws = ws' ∧ ds = ds') ∧
      ((∃ e, read text = .error e) ↔ ∀ ws ds, ¬ Decomposes (uncommented text) ws ds) := by
  have hread : ∀ ds, read text = .ok ds ↔ ∃ ws, Decomposes (uncommented text) ws ds := by
    intro ds
    rw [read, tokens_eq]
    exact readDefinitions_eq_ok_iff
  refine ⟨hread, fun ws ws' ds ds' h h' => ?_, fun ⟨e, he⟩ ws ds h => ?_, fun h => ?_⟩
  · refine ⟨definitions_unique h.reads h'.reads (h.tokens_eq.trans h'.tokens_eq.symm), ?_⟩
    have hds := (hread ds).mpr ⟨ws, h⟩
    rw [(hread ds').mpr ⟨ws', h'⟩] at hds
    exact (Except.ok.inj hds).symm
  · rw [(hread ds).mpr ⟨ws, h⟩] at he
    cases he
  · cases hresult : read text with
    | error e => exact ⟨e, rfl⟩
    | ok ds =>
      obtain ⟨ws, hws⟩ := (hread ds).mp hresult
      exact absurd hws (h ws ds)

/-- A text in which a priority token is the name of a definition, and a lone `@` a symbol. -/
def trickyText : String := "s ::= n:left | @ @1 ::= @-2 # c ::= d"

/-- What `trickyText` is put together of. -/
def trickyWritten : List Written.Definition :=
  [⟨"s", ⟨["n:left"], none⟩, [⟨["@"], none⟩]⟩, ⟨"@1", ⟨[], some ['-', '2']⟩, []⟩]

theorem read_eq_ok_iff_trickyText : ∃ ds, read trickyText = .ok ds ∧
    ds = [⟨"s", [⟨[⟨"n", some "left"⟩], 0⟩, ⟨[⟨"@", none⟩], 0⟩]⟩, ⟨"@1", [⟨[], -2⟩]⟩] ∧
      ∀ ws ds', Decomposes (uncommented trickyText) ws ds' → ws = trickyWritten := by
  have hsymbol : ∀ token : String, token ≠ bar ∧ token ≠ delimiter ∧
      priorityText? token = none → IsSymbol token :=
    fun _ ⟨hbar, hdelimiter, hlevel⟩ => ⟨hbar, hdelimiter, priorityText?_eq_none_iff.mp hlevel⟩
  have hreads : List.Forall₂ Definition.Reads trickyWritten
      [⟨"s", [⟨[⟨"n", some "left"⟩], 0⟩, ⟨[⟨"@", none⟩], 0⟩]⟩, ⟨"@1", [⟨[], -2⟩]⟩] := by
    refine .cons ⟨by decide, by decide, rfl, .cons ?_ (.cons ?_ .nil)⟩
      (.cons ⟨by decide, by decide, rfl, .cons ?_ .nil⟩ .nil)
    · refine ⟨List.forall_mem_singleton.mpr (hsymbol _ (by decide +kernel)), ?_, .absent⟩
      exact .cons (Occurrence.reads_iff.mpr (by decide +kernel)) .nil
    · refine ⟨List.forall_mem_singleton.mpr (hsymbol _ (by decide +kernel)), ?_, .absent⟩
      exact .cons (Occurrence.reads_iff.mpr (by decide +kernel)) .nil
    · exact ⟨nofun, .nil, .given (integer?_eq_some_iff.mp (by decide +kernel))⟩
  have hwritten : Decomposes (uncommented trickyText) trickyWritten _ :=
    { tokens_eq := by decide +kernel, reads := hreads }
  obtain ⟨hread, hunique, _⟩ := read_eq_ok_iff trickyText
  exact ⟨_, (hread _).mpr ⟨_, hwritten⟩, rfl, fun ws ds' h => (hunique _ _ _ _ h hwritten).1⟩

end Bnf
end ShiftReduce
