/-
What the tokens of a grammar text are, and what they say.

Comments are cut off a line before it is taken apart into words.  The same tokens are left
when the words are taken first, up to the first that starts with `#`: `tokens_eq`.

A numeral is said here as a text that grows at its end, and a binding as what is behind the
last colon.  `integer?_eq_some_iff` and `Occurrence.reads_iff` say that tokens are read so.
-/
import ShiftReduce.Bnf.Token
import Mathlib.Data.List.Basic
import Mathlib.Data.List.Induction

namespace ShiftReduce
namespace Bnf

/-! ## Comments -/

/-- The word opens a comment. -/
def opensComment (word : List Char) : Bool := word.head? == some '#'

/-- The words of a line up to the first that opens a comment. -/
def wordsBeforeComment (line : List Char) : List (List Char) :=
  (Text.words line).takeWhile fun word => !opensComment word

section Pieces

open Text

theorem pieces_cons_of_blank {c : Char} (h : isBlank c = true) (rest : List Char) :
    pieces isBlank (c :: rest) = [] :: pieces isBlank rest := by
  rw [pieces, if_pos h]

theorem pieces_cons_of_not_blank {c : Char} (h : isBlank c = false) {rest word : List Char}
    {more : List (List Char)} (hrest : pieces isBlank rest = word :: more) :
    pieces isBlank (c :: rest) = (c :: word) :: more := by
  rw [pieces, if_neg (by rw [h]; exact Bool.false_ne_true), hrest]

/-- What is left of the words of some pieces if the first of them counts as well. -/
theorem filter_cut (word : List Char) {more kept : List (List Char)}
    (h : kept.filter (fun piece => !piece.isEmpty) =
      (more.filter fun piece => !piece.isEmpty).takeWhile fun word => !opensComment word) :
    (if opensComment word then [[]] else word :: kept).filter (fun piece => !piece.isEmpty) =
      ((word :: more).filter fun piece => !piece.isEmpty).takeWhile
        fun word => !opensComment word := by
  by_cases hopens : opensComment word = true
  · have hsome : (!word.isEmpty) = true := by
      cases word with
      | nil => cases hopens
      | cons c rest => rfl
    rw [if_pos hopens, List.filter_cons, List.filter_cons, if_pos hsome, List.takeWhile_cons,
      hopens]
    rfl
  · rw [if_neg hopens, List.filter_cons, List.filter_cons]
    rw [Bool.not_eq_true] at hopens
    split
    · rw [List.takeWhile_cons, hopens, h]
      rfl
    · exact h

/-- Where a line is cut, in terms of the pieces between its blanks.  The first piece counts only
if a word would start there. -/
theorem pieces_cutComment (fresh : Bool) (line : List Char) :
    ∃ (word : List Char) (more kept : List (List Char)), pieces isBlank line = word :: more ∧
      pieces isBlank (cutComment fresh line) =
        (if fresh && opensComment word then [[]] else word :: kept) ∧
      kept.filter (fun piece => !piece.isEmpty) =
        (more.filter fun piece => !piece.isEmpty).takeWhile fun word => !opensComment word := by
  induction line generalizing fresh with
  | nil => exact ⟨[], [], [], rfl, by cases fresh <;> rfl, rfl⟩
  | cons c rest ih =>
    rw [cutComment]
    by_cases hcut : (fresh && c == '#') = true
    · obtain ⟨word, more, kept, hpieces, _, hkept⟩ := ih true
      have hblank : isBlank c = false := by
        rw [beq_iff_eq.mp (Bool.and_eq_true_iff.mp hcut).2]
        decide
      have hopens : (fresh && opensComment (c :: word)) = true := hcut
      refine ⟨c :: word, more, kept, pieces_cons_of_not_blank hblank hpieces, ?_, hkept⟩
      rw [if_pos hcut, if_pos hopens]
      rfl
    · rw [if_neg hcut]
      by_cases hblank : isBlank c = true
      · obtain ⟨word, more, kept, hpieces, hcutPieces, hkept⟩ := ih true
        rw [Bool.true_and] at hcutPieces
        have hopens : (fresh && opensComment []) = false := Bool.and_false fresh
        refine ⟨[], word :: more, _, ?_, ?_, filter_cut word hkept⟩
        · rw [pieces_cons_of_blank hblank, hpieces]
        · rw [pieces_cons_of_blank hblank, hblank, hcutPieces, hopens]
          rfl
      · rw [Bool.not_eq_true] at hblank
        obtain ⟨word, more, kept, hpieces, hcutPieces, hkept⟩ := ih false
        have hopens : ¬ (fresh && opensComment (c :: word)) = true := hcut
        refine ⟨c :: word, more, kept, pieces_cons_of_not_blank hblank hpieces, ?_, hkept⟩
        rw [if_neg hopens, hblank]
        exact pieces_cons_of_not_blank hblank hcutPieces

end Pieces

theorem words_stripComment (line : List Char) :
    Text.words (stripComment line) = wordsBeforeComment line := by
  obtain ⟨word, more, kept, hpieces, hcut, hkept⟩ := pieces_cutComment true line
  rw [Bool.true_and] at hcut
  rw [wordsBeforeComment, Text.words, Text.words, stripComment, hcut, hpieces]
  exact filter_cut word hkept

/-- The words of a text that belong to no comment, line by line. -/
def uncommented (text : String) : List String :=
  (Text.lines text.toList).flatMap fun line => (wordsBeforeComment line).map String.ofList

theorem tokens_eq (text : String) : tokens text = uncommented text := by
  rw [tokens, uncommented]
  refine List.flatMap_congr fun line _ => ?_
  rw [words_stripComment]

/-! ## Priorities -/

/-- The token is `@` with something behind it. -/
def IsPriority (token : String) : Prop := ∃ text, text ≠ [] ∧ token.toList = '@' :: text

theorem priorityText?_eq_some_iff {token : String} {text : List Char} :
    priorityText? token = some text ↔ text ≠ [] ∧ token.toList = '@' :: text := by
  rw [priorityText?]
  constructor
  · intro h
    split at h
    · rename_i c rest htoken
      cases h
      exact ⟨List.cons_ne_nil c rest, htoken⟩
    · cases h
  · rintro ⟨hsome, htoken⟩
    obtain ⟨c, rest, rfl⟩ := List.exists_cons_of_ne_nil hsome
    rw [htoken]
    rfl

theorem priorityText?_eq_none_iff {token : String} :
    priorityText? token = none ↔ ¬ IsPriority token := by
  rw [Option.eq_none_iff_forall_ne_some]
  exact ⟨fun h ⟨text, htext⟩ => h text (priorityText?_eq_some_iff.mpr htext),
    fun h text htext => h ⟨text, priorityText?_eq_some_iff.mp htext⟩⟩

/-! ## Integers -/

theorem digit?_eq_some_iff {c : Char} {d : Nat} :
    digit? c = some d ↔ d < 10 ∧ c = Nat.digitChar d := by
  have hdigit : c.isDigit = true ↔ 48 ≤ c.toNat ∧ c.toNat ≤ 57 := Char.isDigit_iff_toNat
  have hzero : '0'.toNat = 48 := rfl
  rw [digit?, hzero]
  constructor
  · intro h
    split at h
    · rename_i hc
      cases h
      obtain ⟨hlow, hhigh⟩ := hdigit.mp hc
      refine ⟨by omega, Char.toNat_inj.mp ?_⟩
      rw [Nat.toNat_digitChar_of_lt_ten (by omega)]
      omega
    · cases h
  · rintro ⟨hd, rfl⟩
    have htoNat := Nat.toNat_digitChar_of_lt_ten hd
    rw [if_pos (hdigit.mpr (by omega))]
    exact congrArg some (by omega)

/-- A row of decimal digits and its value. -/
inductive Natural : List Char → Nat → Prop
  | digit {d : Nat} : d < 10 → Natural [Nat.digitChar d] d
  | append {digits : List Char} {n d : Nat} : Natural digits n → d < 10 →
      Natural (digits ++ [Nat.digitChar d]) (10 * n + d)

/-- A text that stands for a 32-bit integer, and its value. -/
inductive Numeral : List Char → Int → Prop
  | unsigned {digits : List Char} {n : Nat} : Natural digits n → n < 0x80000000 →
      Numeral digits n
  | plus {digits : List Char} {n : Nat} : Natural digits n → n < 0x80000000 →
      Numeral ('+' :: digits) n
  | minus {digits : List Char} {n : Nat} : Natural digits n → n ≤ 0x80000000 →
      Numeral ('-' :: digits) (-n)

theorem natural?_eq_some {digits : List Char} {n : Nat} : natural? digits = some n ↔
    digits ≠ [] ∧ ∃ values, digits.mapM digit? = some values ∧
      values.foldl (fun n d => 10 * n + d) 0 = n := by
  cases digits with
  | nil =>
    refine ⟨fun h => ?_, fun h => absurd rfl h.1⟩
    cases h
  | cons c rest =>
    have hmap : natural? (c :: rest) =
        ((c :: rest).mapM digit?).map fun values => values.foldl (fun n d => 10 * n + d) 0 := rfl
    rw [hmap, Option.map_eq_some_iff, and_iff_right (List.cons_ne_nil c rest)]

theorem mapM_concat_eq_some {digits : List Char} {c : Char} {values : List Nat} :
    (digits ++ [c]).mapM digit? = some values ↔ ∃ before d,
      digits.mapM digit? = some before ∧ digit? c = some d ∧ values = before ++ [d] := by
  rw [List.mapM_append, List.mapM_cons, List.mapM_nil]
  constructor
  · intro h
    obtain ⟨before, hbefore, h⟩ := Option.bind_eq_some_iff.mp h
    obtain ⟨last, hlast, h⟩ := Option.bind_eq_some_iff.mp h
    obtain ⟨d, hd, hlast⟩ := Option.bind_eq_some_iff.mp hlast
    cases hlast
    cases h
    exact ⟨before, d, hbefore, hd, rfl⟩
  · rintro ⟨before, d, hbefore, hd, rfl⟩
    rw [hbefore, hd]
    rfl

theorem natural_of_natural? {digits : List Char} {n : Nat} (h : natural? digits = some n) :
    Natural digits n := by
  induction digits using List.reverseRecOn generalizing n with
  | nil => cases h
  | append_singleton digits c ih =>
    obtain ⟨_, values, hvalues, rfl⟩ := natural?_eq_some.mp h
    obtain ⟨before, d, hbefore, hd, rfl⟩ := mapM_concat_eq_some.mp hvalues
    obtain ⟨hlt, rfl⟩ := digit?_eq_some_iff.mp hd
    rw [List.foldl_append]
    by_cases hnil : digits = []
    · subst hnil
      cases hbefore
      show Natural [Nat.digitChar d] (10 * 0 + d)
      rw [Nat.mul_zero, Nat.zero_add]
      exact .digit hlt
    · exact .append (ih (natural?_eq_some.mpr ⟨hnil, before, hbefore, rfl⟩)) hlt

theorem natural?_eq_some_iff {digits : List Char} {n : Nat} :
    natural? digits = some n ↔ Natural digits n := by
  refine ⟨natural_of_natural?, fun h => ?_⟩
  induction h with
  | @digit d hd =>
    have hvalue := digit?_eq_some_iff.mpr ⟨hd, rfl⟩
    refine natural?_eq_some.mpr ⟨List.cons_ne_nil _ _, [d], ?_, by simp⟩
    exact mapM_concat_eq_some.mpr ⟨[], d, List.mapM_nil, hvalue, rfl⟩
  | @append digits n d _ hd ih =>
    obtain ⟨_, before, hbefore, rfl⟩ := natural?_eq_some.mp ih
    have hvalue := digit?_eq_some_iff.mpr ⟨hd, rfl⟩
    refine natural?_eq_some.mpr ⟨List.concat_ne_nil _ _, before ++ [d], ?_, ?_⟩
    · exact mapM_concat_eq_some.mpr ⟨before, d, hbefore, hvalue, rfl⟩
    · rw [List.foldl_append]
      rfl

theorem Natural.isDigit_of_mem {digits : List Char} {n : Nat} (h : Natural digits n) :
    ∀ c ∈ digits, c.isDigit = true := by
  have hdigit : ∀ d : Nat, d < 10 → (Nat.digitChar d).isDigit = true := fun d hd => by
    rw [Nat.isDigit_digitChar]
    exact decide_eq_true hd
  induction h with
  | @digit d hd => exact List.forall_mem_singleton.mpr (hdigit d hd)
  | @append digits n d _ hd ih =>
    exact List.forall_mem_append.mpr ⟨ih, List.forall_mem_singleton.mpr (hdigit d hd)⟩

theorem integer?_eq_some_iff {text : List Char} {n : Int} :
    integer? text = some n ↔ Numeral text n := by
  constructor
  · intro h
    obtain ⟨hvalue, hrange⟩ := Option.filter_eq_some_iff.mp h
    obtain ⟨hlow, hhigh⟩ := of_decide_eq_true hrange
    split at hvalue
    · obtain ⟨m, hm, rfl⟩ := Option.map_eq_some_iff.mp hvalue
      rw [Int.ofNat_eq_natCast] at hhigh
      exact .plus (natural?_eq_some_iff.mp hm) (by omega)
    · obtain ⟨m, hm, rfl⟩ := Option.map_eq_some_iff.mp hvalue
      rw [Int.ofNat_eq_natCast] at hlow
      exact .minus (natural?_eq_some_iff.mp hm) (by omega)
    · obtain ⟨m, hm, rfl⟩ := Option.map_eq_some_iff.mp hvalue
      rw [Int.ofNat_eq_natCast] at hhigh
      exact .unsigned (natural?_eq_some_iff.mp hm) (by omega)
  · intro h
    refine Option.filter_eq_some_iff.mpr ?_
    cases h with
    | @unsigned _ m hdigits hm =>
      refine ⟨?_, decide_eq_true (by omega)⟩
      -- a sign is no digit
      split
      · exact absurd (hdigits.isDigit_of_mem '+' List.mem_cons_self) (by decide)
      · exact absurd (hdigits.isDigit_of_mem '-' List.mem_cons_self) (by decide)
      · exact Option.map_eq_some_iff.mpr ⟨m, natural?_eq_some_iff.mpr hdigits, rfl⟩
    | @plus digits m hdigits hm =>
      refine ⟨?_, decide_eq_true (by omega)⟩
      exact Option.map_eq_some_iff.mpr ⟨m, natural?_eq_some_iff.mpr hdigits, rfl⟩
    | @minus digits m hdigits hm =>
      refine ⟨?_, decide_eq_true (by omega)⟩
      exact Option.map_eq_some_iff.mpr ⟨m, natural?_eq_some_iff.mpr hdigits, rfl⟩

/-- A number is written with a digit at least. -/
theorem Numeral.ne_nil {text : List Char} {n : Int} (h : Numeral text n) : text ≠ [] := by
  rintro rfl
  cases integer?_eq_some_iff.mpr h

/-! ## Bindings -/

theorem splitLastColon_eq_none_iff {cs : List Char} : splitLastColon cs = none ↔ ':' ∉ cs := by
  induction cs with
  | nil => exact ⟨fun _ => List.not_mem_nil, fun _ => rfl⟩
  | cons c rest ih =>
    rw [splitLastColon, List.mem_cons, not_or, ← ih]
    cases splitLastColon rest with
    | some found =>
      refine ⟨fun h => ?_, fun h => ?_⟩
      · cases h
      · cases h.2
    | none =>
      by_cases hc : c = ':'
      · subst hc
        exact ⟨fun h => absurd h (Option.some_ne_none _), fun h => absurd rfl h.1⟩
      · exact ⟨fun _ => ⟨Ne.symm hc, rfl⟩, fun _ => if_neg fun h => hc (beq_iff_eq.mp h)⟩

theorem splitLastColon_append {before after : List Char} (h : ':' ∉ after) :
    splitLastColon (before ++ ':' :: after) = some (before, after) := by
  induction before with
  | nil =>
    show splitLastColon (':' :: after) = some ([], after)
    rw [splitLastColon, splitLastColon_eq_none_iff.mpr h]
    rfl
  | cons c rest ih => rw [List.cons_append, splitLastColon, ih]

theorem splitLastColon_eq_some_iff {cs before after : List Char} :
    splitLastColon cs = some (before, after) ↔ cs = before ++ ':' :: after ∧ ':' ∉ after := by
  refine ⟨fun h => ?_, fun ⟨hcs, hafter⟩ => hcs ▸ splitLastColon_append hafter⟩
  induction cs generalizing before with
  | nil => cases h
  | cons c rest ih =>
    rw [splitLastColon] at h
    cases hrest : splitLastColon rest with
    | some found =>
      rw [hrest] at h
      cases h
      obtain ⟨rfl, hafter⟩ := ih hrest
      exact ⟨rfl, hafter⟩
    | none =>
      rw [hrest] at h
      obtain ⟨hc, h⟩ := Option.ite_none_right_eq_some.mp h
      cases h
      rw [beq_iff_eq.mp hc]
      exact ⟨rfl, splitLastColon_eq_none_iff.mp hrest⟩

/-- What a name token says: a name and a binding if there is something on both sides of its last
colon, and otherwise a name only. -/
inductive Occurrence.Reads (token : String) : Occurrence → Prop
  | bound {before after : List Char} : token.toList = before ++ ':' :: after → ':' ∉ after →
      before ≠ [] → after ≠ [] → Reads token ⟨String.ofList before, some (String.ofList after)⟩
  | whole : (∀ before after : List Char, token.toList = before ++ ':' :: after → ':' ∉ after →
      before = [] ∨ after = []) → Reads token ⟨token, none⟩

/-- Every token says what it is read as, and nothing else. -/
theorem Occurrence.reads_iff {token : String} {o : Occurrence} :
    Occurrence.Reads token o ↔ o = .ofToken token := by
  have hsplit : ∀ before after : List Char, (token.toList = before ++ ':' :: after ∧ ':' ∉ after) ↔
      splitLastColon token.toList = some (before, after) :=
    fun _ _ => splitLastColon_eq_some_iff.symm
  constructor
  · intro h
    cases h with
    | @bound before after htoken hcolon hbefore hafter =>
      rw [ofToken, (hsplit before after).mp ⟨htoken, hcolon⟩]
      simp [hbefore, hafter]
    | whole hnone =>
      rw [ofToken]
      split
      · rename_i before after hfound
        obtain ⟨htoken, hcolon⟩ := (hsplit before after).mpr hfound
        rw [if_pos]
        simpa using hnone before after htoken hcolon
      · rfl
  · rintro rfl
    rw [ofToken]
    split
    · rename_i before after hfound
      obtain ⟨htoken, hcolon⟩ := (hsplit before after).mpr hfound
      split
      · rename_i hempty
        refine .whole fun first last htoken' hcolon' => ?_
        rw [(hsplit first last).mp ⟨htoken', hcolon'⟩] at hfound
        cases hfound
        simpa using hempty
      · rename_i hsome
        simp only [Bool.or_eq_true, List.isEmpty_iff, not_or] at hsome
        exact .bound htoken hcolon hsome.1 hsome.2
    · rename_i hnone
      refine .whole fun before after htoken hcolon => ?_
      rw [(hsplit before after).mp ⟨htoken, hcolon⟩] at hnone
      cases hnone

end Bnf
end ShiftReduce
