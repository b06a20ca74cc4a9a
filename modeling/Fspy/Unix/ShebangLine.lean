import Fspy.Lib.Words
import Fspy.Unix.Shebang

/-!
# The shebang line, read and written

What `parse_shebang` does to the first line is said in terms of words and blanks.
Reading undoes writing: any layout of an interpreter and its arguments on a line that is
peeked as a whole gives them back, split or in one piece.  The parser of the kernel
uses one notion of blank where this one uses two, and the comparison says on which
lines the difference is not seen.
-/

namespace Fspy.Unix

open Fspy.Lib

/-- A `peek_executable` that finds this content everywhere. -/
def peekBytes (content : Bytes) : Bytes → Nat → ExecM Bytes :=
  fun _ len ↦ pure (content.take len)

/-- The peeked bytes after `#!`, up to the first newline or the last byte peeked. -/
def firstLine (buf : Bytes) : Bytes := (buf.drop 2).takeWhile (· != 10)

/-- The text up to the first space or tab. -/
def firstWord (line : Bytes) : Bytes := line.takeWhile (!is_whitespace ·)

/-- The text from the first space or tab on. -/
def afterWord (line : Bytes) : Bytes := line.dropWhile (!is_whitespace ·)

theorem ascii_of_is_whitespace (c : UInt8) (h : is_whitespace c = true) :
    isAsciiWhitespace c = true := by
  simp only [is_whitespace, Bool.or_eq_true] at h
  rcases h with h | h <;> simp [isAsciiWhitespace, h]

theorem firstWord_append_afterWord (line : Bytes) : firstWord line ++ afterWord line = line :=
  List.takeWhile_append_dropWhile

theorem is_whitespace_firstWord (line : Bytes) : ∀ c ∈ firstWord line, is_whitespace c = false :=
  fun c hc ↦ by simpa using List.mem_takeWhile_imp hc

/-- The slice from the end of the interpreter on. -/
theorem drop_firstWord (line : Bytes) : line.drop (firstWord line).length = afterWord line := by
  conv => lhs; arg 2; rw [← firstWord_append_afterWord line]
  exact List.drop_left

/-- The arguments as the two modes take them apart. -/
def splitArguments (options : ParseShebangOptions) (arguments_buf : Bytes) : List Bytes :=
  if options.split_arguments then
    (arguments_buf.splitOnP is_whitespace).filterMap fun arg ↦
      if (trim_ascii arg).isEmpty then none else some (trim_ascii arg)
  else if arguments_buf.isEmpty then [] else [arguments_buf]

/-- What the parser makes of a buffer that starts with `#!`. -/
theorem parseLine_eq_ok {buf : Bytes} (h : (ascii "#!").isPrefixOf buf = true)
    (options : ParseShebangOptions) : parseLine buf options = .ok (some
      ⟨firstWord (trim_ascii (firstLine buf)),
        splitArguments options (trim_ascii_start (afterWord (trim_ascii (firstLine buf))))⟩) := by
  have hline : ((buf.drop 2).splitOn 10).head? = some (firstLine buf) := by
    rw [List.splitOn_eq_splitOnP, head?_splitOnP]
    rfl
  have hword : ((trim_ascii (firstLine buf)).splitOnP is_whitespace).head? =
      some (firstWord (trim_ascii (firstLine buf))) := head?_splitOnP _
  rw [parseLine, if_neg (by simp [h]), hline]
  simp only [hword, drop_firstWord, splitArguments]

theorem parse_shebang_peekBytes (content path : Bytes) (options : ParseShebangOptions) :
    (parse_shebang (peekBytes content) path options).result =
      (parseLine (content.take PEEK_SIZE) options).mapError .errno := by
  rw [parse_shebang, peekBytes, Traced.result_bind]
  rfl

/-- Where no other white space occurs, the pieces are the words. -/
theorem splitArguments_true {s : Bytes}
    (h : ∀ c ∈ s, is_whitespace c = true ∨ isAsciiWhitespace c = false) :
    splitArguments ⟨true⟩ s = words is_whitespace s := by
  have htrim : ∀ piece ∈ s.splitOnP is_whitespace, trim_ascii piece = piece := by
    intro piece hpiece
    have hfree : ∀ c ∈ piece, isAsciiWhitespace c = false := by
      intro c hc
      obtain ⟨hmem, hword⟩ := mem_of_mem_splitOnP hpiece hc
      rcases h c hmem with hblank | hfree
      · rw [hblank] at hword
        cases hword
      · exact hfree
    exact trim_of_free (fun c hc ↦ hfree c (List.mem_of_mem_head? hc))
      (fun c hc ↦ hfree c (List.mem_of_getLast? hc))
  rw [splitArguments, if_pos rfl, words, ← List.filterMap_eq_filter]
  refine List.filterMap_congr fun piece hpiece ↦ ?_
  rw [htrim piece hpiece]
  cases piece <;> rfl

/-! ## Reading what was written -/

/-- A way of writing an interpreter and its arguments on one line. -/
structure ScriptLine where
  /-- The blanks after `#!`. -/
  lead : Bytes
  interpreter : Bytes
  /-- Every argument, after the blanks that precede it. -/
  spaced : List (Bytes × Bytes)
  trail : Bytes
  lead_blank : Blank is_whitespace lead
  interpreter_word : IsWord isAsciiWhitespace interpreter
  spaced_words : Spaced is_whitespace isAsciiWhitespace spaced
  trail_blank : Blank is_whitespace trail

namespace ScriptLine

variable (l : ScriptLine)

def arguments : List Bytes := l.spaced.map Prod.snd

/-- From the first argument to the last, with the blanks between them. -/
def joined : Option Bytes :=
  match l.spaced with
  | [] => none
  | (_, arg) :: more => some (arg ++ layout more)

/-- The line after `#!`. -/
def text : Bytes := l.lead ++ ((l.interpreter ++ layout l.spaced) ++ l.trail)

/-- The first bytes of the script. -/
def render : Bytes := ascii "#!" ++ (l.text ++ [10])

theorem newline_notMem_text : (10 : UInt8) ∉ l.text := by
  have hblank : ∀ {s : Bytes}, Blank is_whitespace s → (10 : UInt8) ∉ s :=
    fun h hmem ↦ absurd (h 10 hmem) (by decide)
  rw [text]
  simp only [List.mem_append, not_or]
  refine ⟨hblank l.lead_blank, ⟨?_, ?_⟩, hblank l.trail_blank⟩
  · exact fun hmem ↦ absurd (l.interpreter_word.letters 10 hmem) (by decide)
  · exact fun hmem ↦ absurd (mem_layout l.spaced_words hmem) (by decide)

/-- The line is found again in any file that starts with it. -/
theorem firstLine_render (rest : Bytes) (hfits : l.render.length ≤ PEEK_SIZE) :
    (ascii "#!").isPrefixOf ((l.render ++ rest).take PEEK_SIZE) = true ∧
      firstLine ((l.render ++ rest).take PEEK_SIZE) = l.text := by
  obtain ⟨more, hmore⟩ : ∃ more, (l.render ++ rest).take PEEK_SIZE =
      ascii "#!" ++ (l.text ++ 10 :: more) := by
    refine ⟨rest.take (PEEK_SIZE - l.render.length), ?_⟩
    rw [List.take_append, List.take_of_length_le hfits, render]
    simp
  rw [hmore, firstLine]
  refine ⟨rfl, ?_⟩
  have hdrop : (ascii "#!" ++ (l.text ++ 10 :: more)).drop 2 = l.text ++ 10 :: more := rfl
  rw [hdrop, List.takeWhile_append_of_pos, List.takeWhile_cons_of_neg (by simp), List.append_nil]
  intro c hc
  rw [bne_iff_ne]
  rintro rfl
  exact l.newline_notMem_text hc

theorem trim_text : trim_ascii l.text = l.interpreter ++ layout l.spaced := by
  have hhead : HeadFree isAsciiWhitespace (l.interpreter ++ layout l.spaced) := by
    intro c hc
    rw [List.head?_append_of_ne_nil _ l.interpreter_word.ne_nil] at hc
    exact l.interpreter_word.letters c (List.mem_of_mem_head? hc)
  have hlast : LastFree isAsciiWhitespace ([] ++ (l.interpreter ++ layout l.spaced)) :=
    lastFree_append_layout l.spaced_words l.interpreter_word
  exact (trim_append (l.lead_blank.mono ascii_of_is_whitespace)
    (l.trail_blank.mono ascii_of_is_whitespace)).trans (trim_of_free hhead hlast)

theorem firstWord_text : firstWord (trim_ascii l.text) = l.interpreter := by
  rw [trim_text]
  exact takeWhile_word (l.interpreter_word.mono ascii_of_is_whitespace).letters
    (head_layout l.spaced_words)

theorem afterWord_text : afterWord (trim_ascii l.text) = layout l.spaced := by
  rw [trim_text]
  exact dropWhile_word (l.interpreter_word.mono ascii_of_is_whitespace).letters
    (head_layout l.spaced_words)

/-- What is left of the blanks before the first argument: nothing. -/
theorem trim_layout : trim_ascii_start (layout l.spaced) = l.joined.getD [] := by
  rw [joined]
  cases h : l.spaced with
  | nil => rfl
  | cons x more =>
      obtain ⟨gap, arg⟩ := x
      obtain ⟨-, hblank, hword⟩ := l.spaced_words (gap, arg) (h ▸ List.mem_cons_self)
      rw [trim_ascii_start, layout,
        List.dropWhile_append_of_pos (hblank.mono ascii_of_is_whitespace)]
      refine dropWhile_of_headFree fun c hc ↦ ?_
      rw [List.head?_append_of_ne_nil _ hword.ne_nil] at hc
      exact hword.letters c (List.mem_of_mem_head? hc)

/-- Splitting what is between the first argument and the last gives the arguments. -/
theorem words_joined : words is_whitespace (l.joined.getD []) = l.arguments := by
  have hlayout := words_layout ascii_of_is_whitespace l.spaced_words
  rw [arguments, joined]
  cases h : l.spaced with
  | nil => rfl
  | cons x more =>
      obtain ⟨gap, arg⟩ := x
      obtain ⟨-, hblank, -⟩ := l.spaced_words (gap, arg) (h ▸ List.mem_cons_self)
      rw [h, layout, words_blank_append hblank] at hlayout
      exact hlayout

/-- An argument is not empty, so neither is what they are joined to. -/
theorem splitArguments_false :
    splitArguments ⟨false⟩ (l.joined.getD []) = l.joined.toList := by
  rw [joined]
  cases h : l.spaced with
  | nil => rfl
  | cons x more =>
      obtain ⟨gap, arg⟩ := x
      obtain ⟨-, -, hword⟩ := l.spaced_words (gap, arg) (h ▸ List.mem_cons_self)
      simp [splitArguments, hword.ne_nil]

theorem parseLine_render (rest : Bytes) (hfits : l.render.length ≤ PEEK_SIZE)
    (options : ParseShebangOptions) :
    parseLine ((l.render ++ rest).take PEEK_SIZE) options =
      .ok (some ⟨l.interpreter, splitArguments options (l.joined.getD [])⟩) := by
  obtain ⟨hmagic, hline⟩ := l.firstLine_render rest hfits
  rw [parseLine_eq_ok hmagic, hline, firstWord_text, afterWord_text, trim_layout]

end ScriptLine

/-- Reading a shebang line undoes writing it, for every layout that is peeked as a whole
and whatever follows it; and the one argument of the unsplit mode splits into the
arguments of the split mode. -/
theorem parse_shebang_render (l : ScriptLine) (rest path : Bytes)
    (hfits : l.render.length ≤ PEEK_SIZE) :
    (parse_shebang (peekBytes (l.render ++ rest)) path ⟨true⟩).result =
        .ok (some ⟨l.interpreter, l.arguments⟩) ∧
      (parse_shebang (peekBytes (l.render ++ rest)) path ⟨false⟩).result =
        .ok (some ⟨l.interpreter, l.joined.toList⟩) ∧
      l.joined.toList.flatMap (words is_whitespace) = l.arguments := by
  have hletters : ∀ c ∈ l.joined.getD [],
      is_whitespace c = true ∨ isAsciiWhitespace c = false := by
    rw [← l.trim_layout]
    exact fun c hc ↦ mem_layout l.spaced_words (List.dropWhile_subset _ hc)
  refine ⟨?_, ?_, ?_⟩
  · rw [parse_shebang_peekBytes, l.parseLine_render rest hfits, splitArguments_true hletters,
      l.words_joined]
    rfl
  · rw [parse_shebang_peekBytes, l.parseLine_render rest hfits, l.splitArguments_false]
    rfl
  · rw [← l.words_joined]
    cases l.joined with
    | none => rfl
    | some s => exact List.append_nil _

/-- `#! /bin/sh`, a tab, `-e`, two blanks, `x`, a blank and a newline. -/
def sampleLine : ScriptLine where
  lead := [32]
  interpreter := ascii "/bin/sh"
  spaced := [([9], ascii "-e"), ([32, 32], ascii "x")]
  trail := [32]
  lead_blank := by decide
  interpreter_word := by decide
  spaced_words := by
    simp only [Spaced, List.mem_cons, List.not_mem_nil, or_false, forall_eq_or_imp, forall_eq]
    decide
  trail_blank := by decide

theorem parse_shebang_render_sample :
    (parse_shebang (peekBytes (sampleLine.render ++ ascii "echo")) [] ⟨true⟩).result =
        .ok (some ⟨ascii "/bin/sh", [ascii "-e", ascii "x"]⟩) ∧
      (parse_shebang (peekBytes (sampleLine.render ++ ascii "echo")) [] ⟨false⟩).result =
        .ok (some ⟨ascii "/bin/sh", [ascii "-e  x"]⟩) ∧
      [ascii "-e  x"].flatMap (words is_whitespace) = [ascii "-e", ascii "x"] :=
  parse_shebang_render sampleLine (ascii "echo") [] (by decide)

/-! ## The parser of the kernel -/

/-- What ends a name for the kernel: a space, a tab or a NUL. -/
def isTerminator (c : UInt8) : Bool := is_whitespace c || c == 0

/-- The first run of bytes that end no name. -/
def scriptName (line : Bytes) : Bytes :=
  (line.dropWhile isTerminator).takeWhile (!isTerminator ·)

/-- What follows that run on the line. -/
def afterName (line : Bytes) : Bytes :=
  (line.dropWhile isTerminator).dropWhile (!isTerminator ·)

/-- The buffer was filled and the line has not ended. -/
def Cut (buf : Bytes) : Prop := buf.length = PEEK_SIZE ∧ (10 : UInt8) ∉ buf

instance (buf : Bytes) : Decidable (Cut buf) := inferInstanceAs (Decidable (_ ∧ _))

/-- What the kernel makes of a script: the interpreter and at most one argument.  A line
without a name is refused, and so is a name that may go on after the buffer. -/
def load_script (content : Bytes) : Except Errno (Option Shebang) :=
  let buf := content.take PEEK_SIZE
  if !(ascii "#!").isPrefixOf buf then .ok none
  else
    let line := firstLine buf
    if scriptName line = [] ∨ Cut buf ∧ afterName line = [] then .error .ENOEXEC
    else
      let argument := trim is_whitespace (afterName line)
      .ok (some ⟨scriptName line, if argument.isEmpty then [] else [argument]⟩)

/-- A line on which the two parsers agree, told from the line without the spaces and tabs
at its ends. -/
structure PlainLine (buf : Bytes) : Prop where
  named : trim is_whitespace (firstLine buf) ≠ []
  /-- It does not start with a carriage return or a form feed. -/
  head : HeadFree isAsciiWhitespace (trim is_whitespace (firstLine buf))
  /-- It does not end with one. -/
  last : LastFree isAsciiWhitespace (trim is_whitespace (firstLine buf))
  nulFree : NulFree (firstWord (trim is_whitespace (firstLine buf)))
  /-- What follows the first word and the blanks after it does not start with one. -/
  argument : HeadFree isAsciiWhitespace
    ((afterWord (trim is_whitespace (firstLine buf))).dropWhile is_whitespace)
  /-- A name on an unfinished line is followed by a space or a tab. -/
  followed : Cut buf → afterWord ((firstLine buf).dropWhile is_whitespace) ≠ []

theorem isTerminator_of_is_whitespace (c : UInt8) (h : is_whitespace c = true) :
    isTerminator c = true := by rw [isTerminator, h, Bool.true_or]

/-- The bytes that both a name and trimming stop at are the blanks. -/
theorem isTerminator_and_isAsciiWhitespace (c : UInt8) :
    (isTerminator c && isAsciiWhitespace c) = is_whitespace c := by
  cases h : is_whitespace c with
  | true => rw [isTerminator, h, ascii_of_is_whitespace c h]; rfl
  | false =>
      rw [isTerminator, h, Bool.false_or]
      by_cases hzero : c = 0
      · subst hzero; rfl
      · simp [hzero]

/-- A word without a NUL does not end at a terminator inside. -/
theorem isTerminator_firstWord {line : Bytes} (h : NulFree (firstWord line)) :
    ∀ c ∈ firstWord line, isTerminator c = false := by
  intro c hc
  have hblank := is_whitespace_firstWord line c hc
  have hzero : c ≠ 0 := by rintro rfl; exact h hc
  simp [isTerminator, hblank, hzero]

/-- A text that starts with no blank starts with a word. -/
theorem firstWord_ne_nil {line : Bytes} (hne : line ≠ []) (hhead : HeadFree is_whitespace line) :
    firstWord line ≠ [] := by
  obtain ⟨c, more, rfl⟩ := List.exists_cons_of_ne_nil hne
  rw [firstWord, List.takeWhile_cons_of_pos (by simp [hhead c rfl])]
  exact List.cons_ne_nil _ _

/-- A line without its leading blanks: the line without the blanks at its ends, and the
blanks at its end. -/
theorem exists_dropWhile_line (line : Bytes) : ∃ t, Blank is_whitespace t ∧
    line.dropWhile is_whitespace = trim is_whitespace line ++ t :=
  exists_rdropWhile _

/-- What the argument is cut out of. -/
theorem trim_afterWord_append {line t : Bytes} (ht : Blank is_whitespace t)
    (hlast : LastFree is_whitespace line) :
    trim is_whitespace (afterWord line ++ t) = (afterWord line).dropWhile is_whitespace := by
  have hsuffix : (afterWord line).dropWhile is_whitespace <:+ line :=
    (List.dropWhile_suffix _).trans (List.dropWhile_suffix _)
  have := trim_append (s := afterWord line) (g := []) (fun _ h ↦ nomatch h) ht
  rw [List.nil_append] at this
  rw [this, trim, rdropWhile_of_lastFree (lastFree_of_suffix hsuffix hlast)]

/-- The first word is followed by a blank, also where blanks come after the line. -/
theorem head_afterWord_append (line : Bytes) {t : Bytes} (ht : Blank is_whitespace t) :
    ∀ c ∈ (afterWord line ++ t).head?, is_whitespace c = true := by
  intro c hc
  cases h : afterWord line with
  | nil =>
      rw [h, List.nil_append] at hc
      exact ht c (List.mem_of_mem_head? hc)
  | cons d more =>
      rw [h] at hc
      exact head_dropWhile_not line c (by rw [← afterWord, h]; exact hc)

/-- The name and the argument, on a line whose first word has no NUL. -/
theorem scriptName_eq {line : Bytes} (hnamed : trim is_whitespace line ≠ [])
    (hnul : NulFree (firstWord (trim is_whitespace line))) :
    scriptName line = firstWord (trim is_whitespace line) ∧
      afterName line = afterWord (line.dropWhile is_whitespace) ∧
      trim is_whitespace (afterName line) =
        (afterWord (trim is_whitespace line)).dropWhile is_whitespace := by
  obtain ⟨t, ht, hline⟩ := exists_dropWhile_line line
  generalize hT : trim is_whitespace line = T at *
  have hword : line.dropWhile is_whitespace = firstWord T ++ (afterWord T ++ t) := by
    rw [hline, ← List.append_assoc, firstWord_append_afterWord]
  have hhead := head_afterWord_append T ht
  have hterm : ∀ c ∈ (afterWord T ++ t).head?, isTerminator c = true :=
    fun c hc ↦ isTerminator_of_is_whitespace c (hhead c hc)
  have hne : firstWord T ≠ [] := firstWord_ne_nil hnamed (hT ▸ headFree_trim line)
  have hstart : line.dropWhile isTerminator = firstWord T ++ (afterWord T ++ t) := by
    rw [← hword]
    refine dropWhile_of_headFree_dropWhile isTerminator_of_is_whitespace fun c hc ↦ ?_
    rw [hword, List.head?_append_of_ne_nil _ hne] at hc
    exact isTerminator_firstWord hnul c (List.mem_of_mem_head? hc)
  have hafter : afterName line = afterWord T ++ t := by
    rw [afterName, hstart]
    exact dropWhile_word (isTerminator_firstWord hnul) hterm
  refine ⟨?_, ?_, ?_⟩
  · rw [scriptName, hstart]
    exact takeWhile_word (isTerminator_firstWord hnul) hterm
  · rw [hafter, afterWord, hword]
    exact (dropWhile_word (is_whitespace_firstWord T) hhead).symm
  · rw [hafter, trim_afterWord_append ht (hT ▸ lastFree_trim line)]

/-- The two answers for a buffer that starts with `#!`. -/
theorem parseLine_eq_load_script {content : Bytes}
    (h : (ascii "#!").isPrefixOf (content.take PEEK_SIZE) = true) :
    parseLine (content.take PEEK_SIZE) ⟨false⟩ = load_script content ↔
      let line := firstLine (content.take PEEK_SIZE)
      (scriptName line ≠ [] ∧ (Cut (content.take PEEK_SIZE) → afterName line ≠ [])) ∧
        firstWord (trim_ascii line) = scriptName line ∧
        trim_ascii_start (afterWord (trim_ascii line)) = trim is_whitespace (afterName line) := by
  have hsplit : ∀ s : Bytes, splitArguments ⟨false⟩ s = if s.isEmpty then [] else [s] :=
    fun _ ↦ rfl
  have hinj : ∀ s t : Bytes,
      ((if s.isEmpty then [] else [s]) = if t.isEmpty then [] else [t]) ↔ s = t := by
    intro s t
    cases s <;> cases t <;> simp
  rw [parseLine_eq_ok h, load_script, if_neg (by simp [h])]
  dsimp only
  split
  · rename_i hbad
    refine ⟨fun h ↦ (nomatch h), fun ⟨⟨hname, hcut⟩, _⟩ ↦ ?_⟩
    rcases hbad with hnil | ⟨hfull, hnil⟩
    · exact absurd hnil hname
    · exact absurd hnil (hcut hfull)
  · rename_i hgood
    rw [not_or, not_and] at hgood
    simp only [hsplit, Except.ok.injEq, Option.some.injEq, Shebang.mk.injEq, hinj]
    exact (and_iff_right hgood).symm

/-- On a plain line the two parsers agree. -/
theorem PlainLine.agree {content : Bytes} (hmagic : (ascii "#!").isPrefixOf
    (content.take PEEK_SIZE) = true) (h : PlainLine (content.take PEEK_SIZE)) :
    parseLine (content.take PEEK_SIZE) ⟨false⟩ = load_script content := by
  obtain ⟨hname, hafter, hargument⟩ := scriptName_eq h.named h.nulFree
  have htrim : trim_ascii (firstLine (content.take PEEK_SIZE)) =
      trim is_whitespace (firstLine (content.take PEEK_SIZE)) :=
    (trim_eq_trim_iff ascii_of_is_whitespace).mpr ⟨h.head, h.last⟩
  rw [parseLine_eq_load_script hmagic]
  refine ⟨⟨?_, ?_⟩, ?_, ?_⟩
  · rw [hname]
    exact firstWord_ne_nil h.named (headFree_trim _)
  · rw [hafter]
    exact h.followed
  · rw [htrim, hname]
  · rw [htrim, hargument]
    exact dropWhile_of_headFree_dropWhile ascii_of_is_whitespace h.argument

/-- Where the names are the same, both start where the first space or tab has been
skipped. -/
theorem dropWhile_eq_of_names {line : Bytes} (hne : scriptName line ≠ [])
    (hname : firstWord (trim_ascii line) = scriptName line) :
    line.dropWhile is_whitespace = line.dropWhile isTerminator ∧
      line.dropWhile isAsciiWhitespace = line.dropWhile isTerminator := by
  obtain ⟨c, name, hc⟩ := List.exists_cons_of_ne_nil hne
  have hstart : (line.dropWhile isTerminator).head? = some c := by
    conv => lhs; rw [← List.takeWhile_append_dropWhile (p := (!isTerminator ·))
      (l := line.dropWhile isTerminator), ← scriptName, hc]
    rfl
  have htrim : (trim_ascii line).head? = some c := by
    rw [← firstWord_append_afterWord (trim_ascii line), hname, hc]
    rfl
  have hascii : (line.dropWhile isAsciiWhitespace).head? = some c := by
    obtain ⟨t, -, ht⟩ := exists_rdropWhile (p := isAsciiWhitespace)
      (line.dropWhile isAsciiWhitespace)
    rw [ht, List.head?_append, show ((line.dropWhile isAsciiWhitespace).rdropWhile
      isAsciiWhitespace).head? = some c from htrim]
    rfl
  have hboth := dropWhile_and (headFree_dropWhile line)
    (fun hnil ↦ by rw [hnil] at hstart; cases hstart) rfl (hascii.trans hstart.symm)
    (fun d hd ↦ headFree_dropWhile line d (by rw [hascii, ← hstart]; exact hd))
  simp only [isTerminator_and_isAsciiWhitespace] at hboth
  exact hboth

/-- The trimmed line ends where its argument does, or where its name does. -/
theorem exists_trim_line {line : Bytes}
    (hblank : line.dropWhile is_whitespace = line.dropWhile isTerminator) :
    ∃ gap, Blank is_whitespace gap ∧ trim is_whitespace line =
      (scriptName line ++ (gap ++ trim is_whitespace (afterName line))).rdropWhile
        is_whitespace := by
  have hparts : line.dropWhile is_whitespace = scriptName line ++ afterName line := by
    rw [hblank, scriptName, afterName, List.takeWhile_append_dropWhile]
  obtain ⟨gap, trail, hgap, htrail, hrest⟩ := exists_trim (p := is_whitespace) (afterName line)
  refine ⟨gap, hgap, ?_⟩
  rw [trim, hparts]
  conv => lhs; rw [hrest, ← List.append_assoc, ← List.append_assoc]
  rw [rdropWhile_append_of_blank htrail, List.append_assoc]

/-- Where names and arguments are the same, trimming white space has removed no more than
spaces and tabs. -/
theorem trim_ascii_eq_of_agree {line : Bytes} (hne : scriptName line ≠ [])
    (hname : firstWord (trim_ascii line) = scriptName line)
    (hargument : trim_ascii_start (afterWord (trim_ascii line)) =
      trim is_whitespace (afterName line)) :
    trim_ascii line = trim is_whitespace line := by
  obtain ⟨hblank, hascii⟩ := dropWhile_eq_of_names hne hname
  obtain ⟨gap, hgap, htrim⟩ := exists_trim_line hblank
  have hlast : LastFree isAsciiWhitespace (trim_ascii line) := lastFree_trim line
  have hlastWord : LastFree isAsciiWhitespace (afterWord (trim_ascii line)) :=
    lastFree_of_suffix (List.dropWhile_suffix _) hlast
  refine (trim_eq_trim_iff ascii_of_is_whitespace).mpr ⟨?_, ?_⟩
  · refine headFree_of_prefix (List.rdropWhile_prefix _ _) ?_
    rw [hblank, ← hascii]
    exact headFree_dropWhile line
  · rw [← hargument] at htrim
    by_cases hnil : trim_ascii_start (afterWord (trim_ascii line)) = []
    · -- without an argument the line is the name
      have hafter : afterWord (trim_ascii line) = [] :=
        Blank.eq_nil (List.dropWhile_eq_nil_iff.mp hnil) hlastWord
      have hword : scriptName line = trim_ascii line := by
        rw [← hname]
        simpa only [hafter, List.append_nil] using firstWord_append_afterWord (trim_ascii line)
      rw [hnil, List.append_nil, rdropWhile_append_of_blank hgap, hword] at htrim
      rw [htrim, rdropWhile_of_lastFree (hlast.mono ascii_of_is_whitespace)]
      exact hlast
    · have hend : LastFree isAsciiWhitespace
          (scriptName line ++ (gap ++ trim_ascii_start (afterWord (trim_ascii line)))) := by
        rw [← List.append_assoc, lastFree_append_iff hnil]
        exact lastFree_of_suffix (List.dropWhile_suffix _) hlastWord
      rw [htrim, rdropWhile_of_lastFree (hend.mono ascii_of_is_whitespace)]
      exact hend

theorem plainLine_of_agree {content : Bytes} (hmagic : (ascii "#!").isPrefixOf
    (content.take PEEK_SIZE) = true)
    (h : parseLine (content.take PEEK_SIZE) ⟨false⟩ = load_script content) :
    PlainLine (content.take PEEK_SIZE) := by
  rw [parseLine_eq_load_script hmagic] at h
  obtain ⟨⟨hne, hcut⟩, hname, hargument⟩ := h
  have htrim := trim_ascii_eq_of_agree hne hname hargument
  have hblank := (dropWhile_eq_of_names hne hname).1
  obtain ⟨hhead, hlast⟩ := (trim_eq_trim_iff ascii_of_is_whitespace).mp htrim
  have hnul : NulFree (firstWord (trim_ascii (firstLine (content.take PEEK_SIZE)))) := by
    rw [hname]
    intro hzero
    have := List.mem_takeWhile_imp hzero
    cases this
  have hnamed : trim is_whitespace (firstLine (content.take PEEK_SIZE)) ≠ [] := by
    rw [← htrim]
    intro hnil
    rw [hnil] at hname
    exact hne hname.symm
  rw [htrim] at hnul hargument
  obtain ⟨-, hafter, htail⟩ := scriptName_eq hnamed hnul
  refine ⟨hnamed, hhead, hlast, hnul, ?_, fun hfull ↦ ?_⟩
  · rw [← htail, ← hargument]
    exact headFree_dropWhile _
  · rw [← hafter]
    exact hcut hfull

/-- `parse_shebang` answers as the kernel does exactly where the content is no script or
its first line is plain. -/
theorem parse_shebang_eq_load_script_iff (content path : Bytes) :
    (parse_shebang (peekBytes content) path ⟨false⟩).result =
        (load_script content).mapError .errno ↔
      ((ascii "#!").isPrefixOf (content.take PEEK_SIZE) = true →
        PlainLine (content.take PEEK_SIZE)) := by
  have hmap : ∀ x y : Except Errno (Option Shebang),
      x.mapError Stop.errno = y.mapError Stop.errno ↔ x = y := by
    intro x y
    cases x <;> cases y <;> simp [Except.mapError]
  rw [parse_shebang_peekBytes, hmap]
  constructor
  · exact fun h hmagic ↦ plainLine_of_agree hmagic h
  · intro h
    cases hmagic : (ascii "#!").isPrefixOf (content.take PEEK_SIZE) with
    | true => exact (h hmagic).agree hmagic
    | false => rw [parseLine, load_script, hmagic]; rfl

/-- A line without a name: the branch for it is never taken, and the empty path is
returned as the interpreter.  A line that ends with a carriage return: the parser drops
it, and for the kernel it belongs to the name. -/
theorem parse_shebang_blank :
    (parse_shebang (peekBytes (ascii "#! \n")) [] ⟨false⟩).result = .ok (some ⟨[], []⟩) ∧
      load_script (ascii "#! \n") = .error .ENOEXEC ∧
      (parse_shebang (peekBytes (ascii "#!/bin/sh\r\n")) [] ⟨false⟩).result =
        .ok (some ⟨ascii "/bin/sh", []⟩) ∧
      load_script (ascii "#!/bin/sh\r\n") = .ok (some ⟨ascii "/bin/sh\r", []⟩) ∧
      ¬ ∀ content path, (parse_shebang (peekBytes content) path ⟨false⟩).result =
        (load_script content).mapError .errno :=
  ⟨by decide, by decide, by decide, by decide, fun h ↦
    absurd (h (ascii "#! \n") []) (by decide)⟩

end Fspy.Unix
