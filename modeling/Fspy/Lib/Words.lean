import Mathlib.Data.List.DropRight

/-!
# Words between blanks

A text is taken apart at its *blanks*, the letters that satisfy a predicate `p`.  What
is between them are the words; a `layout` puts a run of blanks before every word, and
splitting a layout gives back its words however long the runs are.
-/

namespace Fspy.Lib

variable {α : Type} {p q : α → Bool} {g s t w : List α}

/-- A run of blanks. -/
def Blank (p : α → Bool) (s : List α) : Prop := ∀ c ∈ s, p c = true

/-- A word: some letters, none of them a blank. -/
structure IsWord (p : α → Bool) (w : List α) : Prop where
  ne_nil : w ≠ []
  letters : ∀ c ∈ w, p c = false

/-- The text does not start with a blank. -/
def HeadFree (p : α → Bool) (s : List α) : Prop := ∀ c ∈ s.head?, p c = false

/-- The text does not end with a blank. -/
def LastFree (p : α → Bool) (s : List α) : Prop := ∀ c ∈ s.getLast?, p c = false

instance : Decidable (Blank p s) := inferInstanceAs (Decidable (∀ c ∈ s, p c = true))

instance : Decidable (IsWord p w) :=
  decidable_of_iff (w.isEmpty = false ∧ ∀ c ∈ w, p c = false)
    ⟨fun h ↦ ⟨List.isEmpty_eq_false_iff.mp h.1, h.2⟩,
      fun h ↦ ⟨List.isEmpty_eq_false_iff.mpr h.ne_nil, h.letters⟩⟩

instance : Decidable (HeadFree p s) :=
  inferInstanceAs (Decidable (∀ c ∈ s.head?, p c = false))

instance : Decidable (LastFree p s) :=
  inferInstanceAs (Decidable (∀ c ∈ s.getLast?, p c = false))

theorem Blank.mono (hpq : ∀ c, p c = true → q c = true) (h : Blank p s) : Blank q s :=
  fun c hc ↦ hpq c (h c hc)

theorem Blank.reverse (h : Blank p s) : Blank p s.reverse :=
  fun c hc ↦ h c (List.mem_reverse.mp hc)

theorem IsWord.mono (hpq : ∀ c, p c = true → q c = true) (h : IsWord q w) : IsWord p w where
  ne_nil := h.ne_nil
  letters c hc := by
    cases hp : p c with
    | false => rfl
    | true => rw [← h.letters c hc, hpq c hp]

theorem LastFree.mono (hpq : ∀ c, p c = true → q c = true) (h : LastFree q s) :
    LastFree p s := by
  intro c hc
  cases hp : p c with
  | false => rfl
  | true => rw [← h c hc, hpq c hp]

/-- Only the empty text is blank and does not end with a blank. -/
theorem Blank.eq_nil (hs : Blank p s) (hlast : LastFree p s) : s = [] := by
  cases hc : s.getLast? with
  | none => exact List.getLast?_eq_none_iff.mp hc
  | some c =>
      have := hlast c hc
      rw [hs c (List.mem_of_getLast? hc)] at this
      cases this

/-! ## Dropping blanks at the ends -/

theorem headFree_dropWhile (s : List α) : HeadFree p (s.dropWhile p) := by
  intro c hc
  have := List.head?_dropWhile_not p s
  rw [hc] at this
  exact this

theorem dropWhile_of_headFree (h : HeadFree p s) : s.dropWhile p = s := by
  cases s with
  | nil => rfl
  | cons c s => exact List.dropWhile_cons_of_neg (by simp [h c rfl])

theorem headFree_reverse : HeadFree p s.reverse ↔ LastFree p s := by
  rw [HeadFree, LastFree, List.head?_reverse]

theorem lastFree_rdropWhile (s : List α) : LastFree p (s.rdropWhile p) := by
  rw [← headFree_reverse, List.rdropWhile, List.reverse_reverse]
  exact headFree_dropWhile _

theorem rdropWhile_of_lastFree (h : LastFree p s) : s.rdropWhile p = s := by
  rw [List.rdropWhile, dropWhile_of_headFree (headFree_reverse.mpr h), List.reverse_reverse]

theorem rdropWhile_append_of_blank (h : Blank p t) :
    (s ++ t).rdropWhile p = s.rdropWhile p := by
  rw [List.rdropWhile, List.rdropWhile, List.reverse_append,
    List.dropWhile_append_of_pos h.reverse]

/-- What is dropped at the end is blank. -/
theorem exists_rdropWhile (s : List α) : ∃ t, Blank p t ∧ s = s.rdropWhile p ++ t :=
  ⟨s.rtakeWhile p, fun _ hc ↦ List.mem_rtakeWhile_imp hc, List.rdropWhile_append_rtakeWhile.symm⟩

theorem lastFree_of_suffix (h : s <:+ t) (ht : LastFree p t) : LastFree p s := by
  obtain ⟨u, rfl⟩ := h
  intro c hc
  exact ht c (by rw [List.getLast?_append, Option.mem_def.mp hc]; rfl)

theorem lastFree_append_iff (hs : s ≠ []) : LastFree p (t ++ s) ↔ LastFree p s := by
  rw [LastFree, LastFree, List.getLast?_append_of_ne_nil _ hs]

/-- Dropping more letters changes nothing where no such letter comes first. -/
theorem dropWhile_of_headFree_dropWhile (hpq : ∀ c, p c = true → q c = true)
    (h : HeadFree q (s.dropWhile p)) : s.dropWhile q = s.dropWhile p := by
  conv => lhs; rw [← List.takeWhile_append_dropWhile (p := p) (l := s)]
  rw [List.dropWhile_append_of_pos fun c hc ↦ hpq c (List.mem_takeWhile_imp hc),
    dropWhile_of_headFree h]

/-- The text without the blanks at its ends. -/
def trim (p : α → Bool) (s : List α) : List α := (s.dropWhile p).rdropWhile p

theorem lastFree_trim (s : List α) : LastFree p (trim p s) := lastFree_rdropWhile _

theorem headFree_of_prefix (h : s <+: t) (ht : HeadFree p t) : HeadFree p s := by
  obtain ⟨u, rfl⟩ := h
  intro c hc
  exact ht c (by rw [List.head?_append, Option.mem_def.mp hc]; rfl)

theorem headFree_trim (s : List α) : HeadFree p (trim p s) :=
  headFree_of_prefix (List.rdropWhile_prefix p _) (headFree_dropWhile s)

theorem trim_of_free (hs : HeadFree p s) (ht : LastFree p s) : trim p s = s := by
  rw [trim, dropWhile_of_headFree hs, rdropWhile_of_lastFree ht]

/-- Blanks around a text do not change what is left of it. -/
theorem trim_append (hg : Blank p g) (ht : Blank p t) : trim p (g ++ (s ++ t)) = trim p s := by
  rw [trim, trim, List.dropWhile_append_of_pos hg, List.dropWhile_append]
  split
  · rename_i hnil
    rw [List.isEmpty_iff.mp hnil, List.dropWhile_eq_nil_iff.mpr ht]
  · exact rdropWhile_append_of_blank ht

/-- What trimming removes is blank. -/
theorem exists_trim (s : List α) :
    ∃ g t, Blank p g ∧ Blank p t ∧ s = g ++ (trim p s ++ t) := by
  obtain ⟨t, ht, hs⟩ := exists_rdropWhile (p := p) (s.dropWhile p)
  refine ⟨s.takeWhile p, t, fun _ hc ↦ List.mem_takeWhile_imp hc, ht, ?_⟩
  rw [trim, ← hs, List.takeWhile_append_dropWhile]

/-- Trimming more letters changes nothing where no such letter is left at the ends. -/
theorem trim_eq_trim_iff (hpq : ∀ c, p c = true → q c = true) :
    trim q s = trim p s ↔ HeadFree q (trim p s) ∧ LastFree q (trim p s) := by
  constructor
  · intro h
    rw [← h]
    exact ⟨headFree_trim s, lastFree_trim s⟩
  · rintro ⟨hhead, hlast⟩
    obtain ⟨g, t, hg, ht, hs⟩ := exists_trim (p := p) s
    rw [hs, trim_append (hg.mono hpq) (ht.mono hpq), ← hs]
    exact trim_of_free hhead hlast

/-! ## The first word -/

/-- `split` yields first what precedes the first blank. -/
theorem head?_splitOnP (s : List α) :
    (s.splitOnP p).head? = some (s.takeWhile fun c ↦ !p c) := by
  induction s with
  | nil => rfl
  | cons c s ih =>
      rw [List.splitOnP_cons_eq_if_modifyHead, List.takeWhile_cons]
      cases p c with
      | true => rfl
      | false =>
          rw [if_neg Bool.false_ne_true, List.head?_modifyHead, ih]
          rfl

/-- The pieces are made of letters of the text that are not blanks. -/
theorem mem_of_mem_splitOnP {c : α} (hw : w ∈ s.splitOnP p) (hc : c ∈ w) :
    c ∈ s ∧ p c = false := by
  induction s generalizing w with
  | nil =>
      rw [List.splitOnP_nil, List.mem_singleton] at hw
      subst hw
      cases hc
  | cons d s ih =>
      rw [List.splitOnP_cons_eq_if_modifyHead] at hw
      cases hd : p d with
      | true =>
          rw [if_pos hd] at hw
          rcases List.mem_cons.mp hw with rfl | hw
          · cases hc
          · exact ⟨List.mem_cons_of_mem d (ih hw hc).1, (ih hw hc).2⟩
      | false =>
          rw [if_neg (by simp [hd])] at hw
          cases hsplit : s.splitOnP p with
          | nil => exact absurd hsplit (List.splitOnP_ne_nil p s)
          | cons v pieces =>
              rw [hsplit] at hw
              rcases List.mem_cons.mp hw with rfl | hw
              · rcases List.mem_cons.mp hc with rfl | hc
                · exact ⟨List.mem_cons_self, hd⟩
                · have := ih (hsplit ▸ List.mem_cons_self) hc
                  exact ⟨List.mem_cons_of_mem d this.1, this.2⟩
              · have := ih (hsplit ▸ List.mem_cons_of_mem v hw) hc
                exact ⟨List.mem_cons_of_mem d this.1, this.2⟩

/-- A word ends where the text does, or at a blank. -/
theorem takeWhile_word (hw : ∀ c ∈ w, p c = false) (hs : ∀ c ∈ s.head?, p c = true) :
    (w ++ s).takeWhile (fun c ↦ !p c) = w := by
  rw [List.takeWhile_append_of_pos fun c hc ↦ by simp [hw c hc]]
  cases s with
  | nil => simp
  | cons c s => simp [hs c rfl]

/-- What follows a word that ends so. -/
theorem dropWhile_word (hw : ∀ c ∈ w, p c = false) (hs : ∀ c ∈ s.head?, p c = true) :
    (w ++ s).dropWhile (fun c ↦ !p c) = s := by
  rw [List.dropWhile_append_of_pos fun c hc ↦ by simp [hw c hc]]
  exact dropWhile_of_headFree fun c hc ↦ by simp [hs c hc]

theorem head_dropWhile_not (s : List α) :
    ∀ c ∈ (s.dropWhile fun c ↦ !p c).head?, p c = true := by
  intro c hc
  simpa using headFree_dropWhile (p := fun c ↦ !p c) s c hc

/-- Two kinds of blanks dropped before the same letter: what was dropped is of both
kinds. -/
theorem dropWhile_and (hp : HeadFree p s) (hs : s ≠ []) (hdrop : t.dropWhile p = s)
    (hhead : (t.dropWhile q).head? = s.head?) (hq : HeadFree q s) :
    t.dropWhile (fun c ↦ p c && q c) = s ∧ t.dropWhile q = s := by
  induction t with
  | nil => exact absurd hdrop.symm hs
  | cons c t ih =>
      rw [List.dropWhile_cons] at hdrop hhead ⊢
      rw [List.dropWhile_cons]
      cases hpc : p c with
      | true =>
          cases hqc : q c with
          | true =>
              simp only [hpc, hqc, Bool.and_self, if_true] at hdrop hhead ⊢
              exact ih hdrop hhead
          | false =>
              -- `c` would start `s`
              simp only [hqc, Bool.false_eq_true, if_false, List.head?_cons] at hhead
              rw [hp c hhead.symm] at hpc
              cases hpc
      | false =>
          simp only [hpc, Bool.false_eq_true, if_false] at hdrop
          subst hdrop
          simp [hq c rfl]

/-! ## Layouts -/

/-- Every word after its run of blanks. -/
def layout : List (List α × List α) → List α
  | [] => []
  | (gap, word) :: more => gap ++ (word ++ layout more)

/-- Some blanks, then a word. -/
def Spaced (p q : α → Bool) (l : List (List α × List α)) : Prop :=
  ∀ x ∈ l, x.1 ≠ [] ∧ Blank p x.1 ∧ IsWord q x.2

/-- Split at the blanks; between two blanks there is no word. -/
def words (p : α → Bool) (s : List α) : List (List α) :=
  (s.splitOnP p).filter fun w ↦ !w.isEmpty

theorem words_blank_append (h : Blank p g) : words p (g ++ s) = words p s := by
  induction g with
  | nil => rfl
  | cons c g ih =>
      rw [List.cons_append, words, List.splitOnP_cons_eq_if_modifyHead,
        if_pos (h c List.mem_cons_self), List.filter_cons_of_neg (by simp), ← words]
      exact ih fun d hd ↦ h d (List.mem_cons_of_mem c hd)

/-- The first word of a text that starts with one. -/
theorem words_word_append (hw : IsWord p w) (hs : ∀ c ∈ s.head?, p c = true) :
    words p (w ++ s) = w :: words p s := by
  have hne : (!w.isEmpty) = true := by simp [hw.ne_nil]
  cases s with
  | nil =>
      rw [List.append_nil, words, List.splitOnP_eq_singleton hw.letters]
      simp [hne, words]
  | cons c s =>
      rw [words, List.splitOnP_append_cons_of_forall_mem hw.letters c (hs c rfl), words,
        List.splitOnP_cons_eq_if_modifyHead, if_pos (hs c rfl)]
      simp [hne]

theorem head_layout {l : List (List α × List α)} (h : Spaced p q l) :
    ∀ c ∈ (layout l).head?, p c = true := by
  cases l with
  | nil => intro c hc; cases hc
  | cons x l =>
      obtain ⟨hne, hblank, -⟩ := h x List.mem_cons_self
      intro c hc
      obtain ⟨d, gap, hd⟩ := List.exists_cons_of_ne_nil hne
      rw [layout, hd] at hc
      obtain rfl := Option.some.inj hc
      exact hblank _ (hd ▸ List.mem_cons_self)

theorem Spaced.tail {x : List α × List α} {l : List (List α × List α)}
    (h : Spaced p q (x :: l)) : Spaced p q l := fun y hy ↦ h y (List.mem_cons_of_mem x hy)

/-- Splitting a layout gives back its words. -/
theorem words_layout (hpq : ∀ c, p c = true → q c = true) {l : List (List α × List α)}
    (h : Spaced p q l) : words p (layout l) = l.map Prod.snd := by
  induction l with
  | nil => rfl
  | cons x l ih =>
      obtain ⟨-, hblank, hword⟩ := h x List.mem_cons_self
      rw [layout, words_blank_append hblank,
        words_word_append (hword.mono hpq) (head_layout h.tail), ih h.tail, List.map_cons]

/-- A layout is made of blanks and of letters of words. -/
theorem mem_layout {l : List (List α × List α)} (h : Spaced p q l) {c : α}
    (hc : c ∈ layout l) : p c = true ∨ q c = false := by
  induction l with
  | nil => cases hc
  | cons x l ih =>
      obtain ⟨-, hblank, hword⟩ := h x List.mem_cons_self
      rw [layout, List.mem_append, List.mem_append] at hc
      rcases hc with hc | hc | hc
      · exact .inl (hblank c hc)
      · exact .inr (hword.letters c hc)
      · exact ih h.tail hc

/-- A layout after a word ends with a word. -/
theorem lastFree_append_layout {l : List (List α × List α)} (h : Spaced p q l)
    (hw : IsWord q w) : LastFree q (s ++ (w ++ layout l)) := by
  induction l generalizing s w with
  | nil =>
      intro c hc
      rw [layout, List.append_nil, List.getLast?_append_of_ne_nil _ hw.ne_nil] at hc
      exact hw.letters c (List.mem_of_getLast? hc)
  | cons x l ih =>
      obtain ⟨-, -, hword⟩ := h x List.mem_cons_self
      have := ih (s := s ++ (w ++ x.1)) h.tail hword
      simpa only [layout, List.append_assoc] using this

end Fspy.Lib
