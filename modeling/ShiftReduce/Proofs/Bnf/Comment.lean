/-
Where the comment of a line begins.

`stripComment` goes through a line character by character.  Here the same cut is measured in
bytes: the line is taken apart behind every blank, the bytes of the segments are added up, and the
first segment that starts with `#` is where the line is cut (`commentStart?`).  A cut at a byte is
only possible between two characters (`upTo?`), and words are found by another rule than segments,
one that drops blanks and keeps none of them.

`cutComment_cases` is the induction that brings the two ways together.  It carries along whether a
word would start at the present position: a segment that has already begun cannot open a
comment, and neither can a word.  The rest is about words alone: behind a blank the words of a line
are those before and those after (`words_append`), so a `#` behind a blank starts the next word.
-/
import ShiftReduce.Proofs.Bnf.Token

namespace ShiftReduce
namespace Text

/-! ## Bytes -/

/-- The number of bytes of a text in UTF-8. -/
def byteSize : List Char → Nat
  | [] => 0
  | c :: rest => c.utf8Size + byteSize rest

theorem utf8ByteSize_ofList (text : List Char) :
    (String.ofList text).utf8ByteSize = byteSize text := by
  induction text with
  | nil => rfl
  | cons c rest ih =>
    rw [String.ofList_cons, String.utf8ByteSize_append, String.utf8ByteSize_singleton, ih, byteSize]

theorem rawEndPos_ofList (text : List Char) :
    (String.ofList text).rawEndPos = ⟨byteSize text⟩ :=
  congrArg String.Pos.Raw.mk (utf8ByteSize_ofList text)

/-- The part of a text before a byte; there is none if the byte is past the end or inside a
character. -/
def upTo? (text : List Char) (offset : Nat) : Option (List Char) :=
  if h : (⟨offset⟩ : String.Pos.Raw).IsValid (String.ofList text) then
    some ((String.ofList text).sliceTo ⟨⟨offset⟩, h⟩).copy.toList
  else none

/-- Behind a part of a text there is a boundary between characters. -/
theorem isValid_byteSize (front back : List Char) :
    (⟨byteSize front⟩ : String.Pos.Raw).IsValid (String.ofList (front ++ back)) := by
  rw [String.Pos.Raw.isValid_iff_exists_append]
  exact ⟨String.ofList front, String.ofList back, String.ofList_append,
    (rawEndPos_ofList front).symm⟩

theorem upTo?_append (front back : List Char) :
    upTo? (front ++ back) (byteSize front) = some front := by
  have hvalid := isValid_byteSize front back
  have hsplit := String.Pos.splits (⟨⟨byteSize front⟩, hvalid⟩ : String.Pos _)
  have hfront : String.Pos.Splits ⟨⟨byteSize front⟩, hvalid⟩ (String.ofList front)
      (String.ofList back) :=
    ⟨String.ofList_append, (rawEndPos_ofList front).symm⟩
  rw [upTo?, dif_pos hvalid, hsplit.eq_left hfront, String.toList_ofList]

/-! ## Segments -/

/-- A text taken apart behind every character that satisfies `cut`.  Nothing is lost, and no segment
is empty. -/
def segments (cut : Char → Bool) : List Char → List (List Char)
  | [] => []
  | c :: rest =>
      if cut c then [c] :: segments cut rest
      else
        match segments cut rest with
        | [] => [[c]]
        | segment :: more => (c :: segment) :: more

/-! ## Words behind a blank -/

theorem exists_pieces_eq_cons (cut : Char → Bool) (text : List Char) :
    ∃ (piece : List Char) (more : List (List Char)), pieces cut text = piece :: more ∧
      piece <+: text := by
  induction text with
  | nil => exact ⟨[], [], rfl, List.prefix_rfl⟩
  | cons c rest ih =>
    obtain ⟨piece, more, hpieces, hprefix⟩ := ih
    by_cases h : cut c = true
    · exact ⟨[], pieces cut rest, by rw [pieces, if_pos h], List.nil_prefix⟩
    · refine ⟨c :: piece, more, ?_, List.cons_prefix_cons.mpr ⟨rfl, hprefix⟩⟩
      rw [pieces, if_neg h, hpieces]

theorem pieces_append {cut : Char → Bool} {c : Char} (h : cut c = true) (front back : List Char) :
    pieces cut (front ++ c :: back) = pieces cut front ++ pieces cut back := by
  induction front with
  | nil =>
    show pieces cut (c :: back) = [[]] ++ pieces cut back
    rw [pieces, if_pos h]
    rfl
  | cons d front ih =>
    obtain ⟨piece, more, hpieces, _⟩ := exists_pieces_eq_cons cut front
    rw [List.cons_append, pieces, pieces, ih]
    by_cases hd : cut d = true
    · rw [if_pos hd, if_pos hd]
      rfl
    · rw [if_neg hd, if_neg hd, hpieces]
      rfl

theorem words_append_blank {c : Char} (h : isBlank c = true) (front back : List Char) :
    words (front ++ c :: back) = words front ++ words back := by
  rw [words, pieces_append h, List.filter_append]
  rfl

/-- A character that is not blank starts the first word, and the word stands where the text
begins. -/
theorem words_cons_of_not_blank {c : Char} (h : isBlank c = false) (rest : List Char) :
    ∃ (word : List Char) (after : List (List Char)), words (c :: rest) = (c :: word) :: after ∧
      c :: word <+: c :: rest := by
  obtain ⟨word, more, hpieces, hprefix⟩ := exists_pieces_eq_cons isBlank rest
  refine ⟨word, more.filter fun piece => !piece.isEmpty, ?_,
    List.cons_prefix_cons.mpr ⟨rfl, hprefix⟩⟩
  rw [words, pieces, if_neg (by rw [h]; exact Bool.false_ne_true), hpieces]
  rfl

end Text

namespace Bnf

open Text

/-! ## Measuring the cut -/

/-- Where the first segment that opens a comment begins, if the first segment of all begins at
`offset`. -/
def commentOffset? (offset : Nat) : List (List Char) → Option Nat
  | [] => none
  | segment :: more =>
      if opensComment segment then some offset
      else commentOffset? (offset + byteSize segment) more

/-- The byte at which the comment of a line begins. -/
def commentStart? (line : List Char) : Option Nat := commentOffset? 0 (segments isBlank line)

/-- A line up to the byte at which its comment begins; `none` if the line cannot be cut there. -/
def sliceComment? (line : List Char) : Option (List Char) :=
  match commentStart? line with
  | some offset => upTo? line offset
  | none => some line

/-- Where the first comment begins if a word that starts here only counts when `fresh`. -/
def offsetFrom? (fresh : Bool) (offset : Nat) : List (List Char) → Option Nat
  | [] => none
  | segment :: more =>
      if fresh && opensComment segment then some offset
      else commentOffset? (offset + byteSize segment) more

theorem offsetFrom?_true (offset : Nat) (rest : List (List Char)) :
    offsetFrom? true offset rest = commentOffset? offset rest := by
  cases rest with
  | nil => rfl
  | cons segment more => rfl

/-- Whether a word would start behind a text, given whether one would start in front of it. -/
def freshBehind (fresh : Bool) (front : List Char) : Bool :=
  front.foldl (fun _ c => isBlank c) fresh

theorem freshBehind_concat (fresh : Bool) (front : List Char) (c : Char) :
    freshBehind fresh (front ++ [c]) = isBlank c := by
  rw [freshBehind, List.foldl_append]
  rfl

theorem isBlank_hash : isBlank '#' = false := by decide

theorem offsetFrom?_cons_of_cut {fresh : Bool} {c : Char} (h : (fresh && c == '#') = true)
    (offset : Nat) (rest : List Char) :
    offsetFrom? fresh offset (segments isBlank (c :: rest)) = some offset := by
  obtain ⟨hfresh, hc⟩ := Bool.and_eq_true_iff.mp h
  obtain rfl := beq_iff_eq.mp hc
  rw [segments, isBlank_hash, if_neg Bool.false_ne_true, hfresh]
  cases segments isBlank rest with
  | nil => rfl
  | cons segment more => rfl

/-- What does not open a comment is gone over, and behind a blank a word could start. -/
theorem offsetFrom?_cons_of_not_cut {fresh : Bool} {c : Char} (h : (fresh && c == '#') = false)
    (offset : Nat) (rest : List Char) :
    offsetFrom? fresh offset (segments isBlank (c :: rest)) =
      offsetFrom? (isBlank c) (offset + c.utf8Size) (segments isBlank rest) := by
  have hgone (segment : List Char) : (fresh && opensComment (c :: segment)) = false := h
  rw [segments]
  by_cases hblank : isBlank c = true
  · rw [if_pos hblank, hblank, offsetFrom?, hgone, if_neg Bool.false_ne_true, offsetFrom?_true]
    rfl
  · rw [if_neg hblank, Bool.eq_false_iff.mpr hblank]
    cases segments isBlank rest with
    | nil =>
      show offsetFrom? fresh offset [[c]] = none
      rw [offsetFrom?, hgone, if_neg Bool.false_ne_true]
      rfl
    | cons segment more =>
      show offsetFrom? fresh offset ((c :: segment) :: more) =
        commentOffset? (offset + c.utf8Size + byteSize segment) more
      rw [offsetFrom?, hgone, if_neg Bool.false_ne_true, byteSize, Nat.add_assoc]

/-- Either nothing is cut off and no segment opens a comment, or what is cut off starts with `#`
where a word would start, as many bytes behind the beginning as are left. -/
theorem cutComment_cases (fresh : Bool) (offset : Nat) (line : List Char) :
    ∃ tail, line = cutComment fresh line ++ tail ∧
      (tail = [] ∧ offsetFrom? fresh offset (segments isBlank line) = none ∨
        tail.head? = some '#' ∧ freshBehind fresh (cutComment fresh line) = true ∧
          offsetFrom? fresh offset (segments isBlank line) =
            some (offset + byteSize (cutComment fresh line))) := by
  induction line generalizing fresh offset with
  | nil => exact ⟨[], rfl, Or.inl ⟨rfl, rfl⟩⟩
  | cons c rest ih =>
    rw [cutComment]
    cases hcut : fresh && c == '#' with
    | true =>
      obtain ⟨hfresh, hc⟩ := Bool.and_eq_true_iff.mp hcut
      refine ⟨c :: rest, rfl, Or.inr ⟨congrArg some (beq_iff_eq.mp hc), hfresh, ?_⟩⟩
      exact offsetFrom?_cons_of_cut hcut offset rest
    | false =>
      obtain ⟨tail, hrest, hcases⟩ := ih (isBlank c) (offset + c.utf8Size)
      rw [offsetFrom?_cons_of_not_cut hcut]
      refine ⟨tail, congrArg (c :: ·) hrest, ?_⟩
      rw [if_neg Bool.false_ne_true]
      rcases hcases with ⟨hnil, hnone⟩ | ⟨hhead, hfresh, hsome⟩
      · exact Or.inl ⟨hnil, hnone⟩
      · refine Or.inr ⟨hhead, hfresh, ?_⟩
        rw [hsome, byteSize, Nat.add_assoc]

/-- Either a line is left as it is, or it is cut before a word that opens a comment. -/
theorem stripComment_cases (line : List Char) :
    (stripComment line = line ∧ commentStart? line = none) ∨
      ∃ tail, line = stripComment line ++ tail ∧ tail.head? = some '#' ∧
        freshBehind true (stripComment line) = true ∧
        commentStart? line = some (byteSize (stripComment line)) := by
  obtain ⟨tail, hline, hcases⟩ := cutComment_cases true 0 line
  rw [offsetFrom?_true, Nat.zero_add] at hcases
  rcases hcases with ⟨rfl, hnone⟩ | hcut
  · rw [List.append_nil] at hline
    exact Or.inl ⟨hline.symm, hnone⟩
  · exact Or.inr ⟨tail, hline, hcut⟩

/-! ## The words on both sides of the cut -/

theorem words_append {front : List Char} (h : freshBehind true front = true) (back : List Char) :
    words (front ++ back) = words front ++ words back := by
  rcases List.eq_nil_or_concat front with rfl | ⟨before, c, rfl⟩
  · rfl
  · rw [List.concat_eq_append, freshBehind_concat] at h
    rw [List.concat_eq_append, List.append_assoc, List.singleton_append, words_append_blank h,
      words_append_blank h]
    show _ = (words before ++ []) ++ words back
    rw [List.append_nil]

/-- What starts with `#` starts with a word that opens a comment. -/
theorem words_of_hash {tail : List Char} (h : tail.head? = some '#') :
    ∃ (word : List Char) (after : List (List Char)), words tail = word :: after ∧
      opensComment word = true ∧ word <+: tail := by
  obtain ⟨rest, rfl⟩ := List.head?_eq_some_iff.mp h
  obtain ⟨word, after, hwords, hprefix⟩ := words_cons_of_not_blank isBlank_hash rest
  exact ⟨_, after, hwords, rfl, hprefix⟩

/-- A line without a word that opens a comment is left as it is. -/
theorem stripComment_of_none {line : List Char}
    (h : ∀ word ∈ words line, opensComment word = false) :
    stripComment line = line ∧ commentStart? line = none := by
  rcases stripComment_cases line with hnone | ⟨tail, hline, hhash, hfresh, _⟩
  · exact hnone
  · obtain ⟨word, after, hwords, hopens, _⟩ := words_of_hash hhash
    have hmem : word ∈ words line := by
      rw [hline, words_append hfresh, hwords]
      exact List.mem_append_right _ List.mem_cons_self
    rw [h word hmem] at hopens
    cases hopens

/-- The first word that opens a comment is the first behind the cut, and it stands right there. -/
theorem stripComment_of_some {line word : List Char} {before after : List (List Char)}
    (hwords : words line = before ++ word :: after)
    (hbefore : ∀ w ∈ before, opensComment w = false) (hopens : opensComment word = true) :
    ∃ tail, line = stripComment line ++ tail ∧ words (stripComment line) = before ∧
      words tail = word :: after ∧ word <+: tail ∧
      commentStart? line = some (byteSize (stripComment line)) := by
  have hleft : words (stripComment line) = before := by
    rw [words_stripComment, wordsBeforeComment, hwords,
      List.takeWhile_append_of_pos fun w hw => by rw [hbefore w hw]; rfl,
      List.takeWhile_cons_of_neg (by rw [hopens]; exact Bool.false_ne_true), List.append_nil]
  rcases stripComment_cases line with ⟨hsame, _⟩ | ⟨tail, hline, hhash, hfresh, hstart⟩
  · rw [hsame, hwords] at hleft
    have hlength := congrArg List.length hleft
    rw [List.length_append, List.length_cons] at hlength
    omega
  · obtain ⟨first, more, htail, _, hprefix⟩ := words_of_hash hhash
    have hall : words line = before ++ words tail := by
      rw [← hleft, ← words_append hfresh, ← hline]
    rw [hwords, htail] at hall
    obtain ⟨rfl, rfl⟩ := List.cons.inj (List.append_cancel_left hall)
    exact ⟨tail, hline, hleft, htail, hprefix, hstart⟩

theorem sliceComment?_eq (line : List Char) : sliceComment? line = some (stripComment line) := by
  rw [sliceComment?]
  rcases stripComment_cases line with ⟨hsame, hnone⟩ | ⟨tail, hline, _, _, hstart⟩
  · rw [hnone, hsame]
  · rw [hstart]
    show upTo? line (byteSize (stripComment line)) = some (stripComment line)
    have hslice := upTo?_append (stripComment line) tail
    rw [← hline] at hslice
    exact hslice

/-- Inside a word no `#` is where a comment begins. -/
theorem commentStart?_ne_inside {front back : List Char} {c : Char} (h : isBlank c = false) :
    commentStart? (front ++ c :: '#' :: back) ≠ some (byteSize (front ++ [c])) := by
  intro hstart
  have hinside := upTo?_append (front ++ [c]) ('#' :: back)
  rw [List.append_assoc, List.singleton_append] at hinside
  have hslice := sliceComment?_eq (front ++ c :: '#' :: back)
  rw [sliceComment?, hstart] at hslice
  have hsame := Option.some.inj (hinside.symm.trans hslice)
  rcases stripComment_cases (front ++ c :: '#' :: back) with ⟨_, hnone⟩ | ⟨_, _, _, hfresh, _⟩
  · rw [hstart] at hnone
    cases hnone
  · rw [← hsame, freshBehind_concat, h] at hfresh
    cases hfresh

/-- Taking the comment off a line leaves the words before the first that starts with `#`.  The line
can be cut where the comment begins, at a boundary between characters, and the cut stands where that
word does; without such a word the line is left as it is.  A `#` with a character that is not blank
before it is never where the comment begins. -/
theorem stripComment_exact (line : List Char) :
    words (stripComment line) = (words line).takeWhile (fun word => !opensComment word) ∧
    sliceComment? line = some (stripComment line) ∧
    ((∀ word ∈ words line, opensComment word = false) →
      commentStart? line = none ∧ stripComment line = line) ∧
    (∀ (before after : List (List Char)) (word : List Char),
      words line = before ++ word :: after → (∀ w ∈ before, opensComment w = false) →
      opensComment word = true → ∃ front tail, line = front ++ tail ∧ words front = before ∧
        words tail = word :: after ∧ word <+: tail ∧ stripComment line = front ∧
        commentStart? line = some (byteSize front) ∧
        (⟨byteSize front⟩ : String.Pos.Raw).IsValid (String.ofList line)) ∧
    (∀ (front back : List Char) (c : Char), line = front ++ c :: '#' :: back →
      isBlank c = false → commentStart? line ≠ some (byteSize (front ++ [c]))) := by
  refine ⟨words_stripComment line, sliceComment?_eq line, fun hnone => ?_,
    fun before after word hwords hbefore hopens => ?_, ?_⟩
  · exact (stripComment_of_none hnone).symm
  · obtain ⟨tail, hline, hfront, htail, hprefix, hstart⟩ :=
      stripComment_of_some hwords hbefore hopens
    have hvalid := isValid_byteSize (stripComment line) tail
    rw [← hline] at hvalid
    exact ⟨stripComment line, tail, hline, hfront, htail, hprefix, rfl, hstart, hvalid⟩
  · rintro front back c rfl h
    exact commentStart?_ne_inside h

/-- Blanks of three, two and one bytes, a `#` inside a word and one that opens a comment: the line
is cut at byte 8 and not at byte 4.  Where all `#` are inside of words nothing is cut. -/
theorem stripComment_exact_mixedBlanks :
    let line := ['\u3000', 'a', '#', 'b', '\u00a0', '#', 'c', ' ', 'd']
    words line = [['a', '#', 'b']] ++ ['#', 'c'] :: [['d']] ∧
      (∀ w ∈ [['a', '#', 'b']], opensComment w = false) ∧ opensComment ['#', 'c'] = true ∧
      commentStart? line = some 8 ∧ stripComment line = ['\u3000', 'a', '#', 'b', '\u00a0'] ∧
      (⟨8⟩ : String.Pos.Raw).IsValid (String.ofList line) ∧
      sliceComment? line = some ['\u3000', 'a', '#', 'b', '\u00a0'] ∧
      isBlank 'a' = false ∧ commentStart? line ≠ some 4 ∧
      (∀ word ∈ words ['a', '#', ' '], opensComment word = false) ∧
      commentStart? ['a', '#', ' '] = none ∧ stripComment ['a', '#', ' '] = ['a', '#', ' '] := by
  intro line
  obtain ⟨-, hslice, -, hcut, hinside⟩ := stripComment_exact line
  have hwords : words line = [['a', '#', 'b']] ++ ['#', 'c'] :: [['d']] := by decide
  have hbefore : ∀ w ∈ [['a', '#', 'b']], opensComment w = false := by decide
  have hopens : opensComment ['#', 'c'] = true := by decide
  have hstrip : stripComment line = ['\u3000', 'a', '#', 'b', '\u00a0'] := by decide
  obtain ⟨front, tail, _, _, _, _, hfront, hstart, hvalid⟩ := hcut _ _ _ hwords hbefore hopens
  obtain rfl := hstrip.symm.trans hfront
  have hword : ∀ word ∈ words ['a', '#', ' '], opensComment word = false := by decide
  obtain ⟨hnone, hsame⟩ := (stripComment_exact ['a', '#', ' ']).2.2.1 hword
  exact ⟨hwords, hbefore, hopens, hstart, hstrip, hvalid, hslice.trans (congrArg some hstrip),
    by decide, hinside ['\u3000'] ['b', '\u00a0', '#', 'c', ' ', 'd'] 'a' rfl (by decide), hword,
    hnone, hsame⟩

end Bnf
end ShiftReduce
