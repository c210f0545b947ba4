import HeapShape.Config.Yaml

/-
  Reading back written YAML.

  A mapping is written with one line for each entry that is no mapping
  itself. What is read after the colon of a key ends at the next line that
  is not indented more, so the values of a mapping can be read one after the
  other. If all of them are read back, so is the mapping.

  Main declarations:
    * `Yaml.ReadsValue`
    * `Yaml.Readable.readsValue`
    * `Yaml.Readable.parse?_render`
-/

-- Words

namespace HeapShape

namespace Yaml

/- A letter, a digit or an underscore. -/
def isWordChar
    (c : Char) : Bool :=
  c.isAlphanum || c == '_'

/- A text that is read as it stands. -/
def IsWord
    (cs : List Char) : Prop :=
  cs ≠ [] ∧ ∀ c ∈ cs, isWordChar c = true

instance
    (cs : List Char) : Decidable (IsWord cs) :=
  @instDecidableAnd _ _ _ (List.decidableBAll _ cs)

/- Characters that are kept and that may be in a text. -/
def IsClean
    (cs : List Char) : Prop :=
  ∀ c ∈ cs, c = '\n' ∨ 0x20 ≤ c.toNat ∧ c.toNat ≤ 0x7E

instance
    (cs : List Char) : Decidable (IsClean cs) :=
  List.decidableBAll _ cs

/- The end, or a word. -/
def Follows
    (cs : List Char) : Prop :=
  ∀ c ∈ cs.head?, isWordChar c = true

variable {c x : Char} {cs w r : List Char} {p : Position} {m d : Nat}

theorem ne_of_isWordChar
    (hc : isWordChar c = true)
    (hx : isWordChar x = false) :
    c ≠ x := by
  rintro rfl
  rw [hc] at hx
  cases hx

/- Words are printable and hold no line break. -/
theorem isClean_of_word
    (hw : ∀ c ∈ w, isWordChar c = true) :
    IsClean w := by
  intro c hMem
  have hc := hw c hMem
  simp only [isWordChar, Char.isAlphanum, Char.isDigit] at hc
  delta Char.isAlpha at hc
  delta Char.isUpper Char.isLower at hc
  simp only [Bool.or_eq_true, Bool.and_eq_true, decide_eq_true_eq,
    beq_iff_eq, UInt32.le_iff_toNat_le, ge_iff_le, Char.toNat_val] at hc
  right
  rcases hc with ((hc | hc) | hc) | rfl
  · simp at hc; omega
  · simp at hc; omega
  · simp at hc; omega
  · decide

theorem IsClean.append
    (hw : IsClean w)
    (hcs : IsClean cs) :
    IsClean (w ++ cs) := by
  intro c hMem
  exact (List.mem_append.mp hMem).elim (hw c) (hcs c)

/- No line break has to be rewritten. -/
theorem IsClean.unifyBreaks_eq
    (hcs : IsClean cs) :
    unifyBreaks cs = cs := by
  induction cs with
  | nil => rfl
  | cons c r ih =>
    have hc := hcs c (List.mem_cons_self ..)
    have hBreak : isOtherBreak c = false := by
      rcases hc with rfl | hc
      · decide
      · simp [isOtherBreak]
        omega
    rw [unifyBreaks, hBreak, ih fun c hMem =>
      hcs c (List.mem_cons_of_mem _ hMem)]
    · rfl
    · rintro rest' rfl
      rcases hc with hc | hc
      · cases hc
      · exact absurd hc.1 (by decide)

theorem IsClean.all_isPrintable
    (hcs : IsClean cs) :
    cs.all isPrintable = true := by
  rw [List.all_eq_true]
  intro c hMem
  rcases hcs c hMem with rfl | hc
  · decide
  · simp [isPrintable, hc]

-- Tokens

/- The place after some characters. -/
def Position.afterAll
    (p : Position)
    (cs : List Char) : Position :=
  cs.foldl Position.after p

/- The place after spaces of the same line. -/
theorem Position.column_spaces
    (p : Position)
    (d : Nat) :
    (p.afterAll (List.replicate d ' ')).column = p.column + d := by
  induction d generalizing p with
  | zero => rfl
  | succ d ih =>
    rw [List.replicate_succ]
    exact (ih (p.after ' ')).trans (Nat.succ_add_eq_add_succ ..)

/- A word stays on its line. -/
theorem Position.afterAll_word
    (p : Position)
    (hw : ∀ c ∈ w, isWordChar c = true) :
    (p.afterAll w).line = p.line ∧ (p.afterAll w).column = p.column + w.length ∧
      (p.afterAll w).index ≤ p.index + 4 * w.length := by
  induction w generalizing p with
  | nil => exact ⟨rfl, rfl, Nat.le_refl _⟩
  | cons c w ih =>
    have hc := ne_of_isWordChar (x := '\n') (hw c (List.mem_cons_self ..)) (by decide)
    have hNext := ih (p.after c) fun c hMem =>
      hw c (List.mem_cons_of_mem _ hMem)
    have hSize := Char.utf8Size_le_four c
    simp only [afterAll, List.foldl_cons, after, hc, if_false, List.length_cons] at hNext ⊢
    omega

/- Spaces are passed over. -/
theorem separateFrom_spaces
    {flow b : Bool} :
    Cursor.separateFrom flow false b p (List.replicate d ' ' ++ r) =
      Cursor.separateFrom flow false b (p.afterAll (List.replicate d ' ')) r := by
  induction d generalizing p with
  | zero => rfl
  | succ d ih =>
    rw [List.replicate_succ, List.cons_append, Cursor.separateFrom]
    simp only [byteOrderMark]
    exact ih

variable {flow b : Bool}

/- A token is where the search for one stops. -/
theorem separateFrom_token
    (hRest : ∀ c ∈ r.head?, c ∉ ['\n', byteOrderMark, '#', ' ', '\t']) :
    Cursor.separateFrom flow false b p r = { rest := r, position := p, fresh := b } := by
  cases r with
  | nil => rfl
  | cons c r =>
    have hc := hRest c rfl
    simp only [List.mem_cons, List.not_mem_nil, or_false, not_or] at hc
    simp [Cursor.separateFrom, hc]

theorem IsWord.follows
    (hw : IsWord w) :
    Follows (w ++ r) := by
  rcases w with _ | ⟨x, w⟩
  · exact absurd rfl hw.1
  · rintro _ ⟨⟩
    exact hw.2 x (List.mem_cons_self ..)

theorem Follows.separateFrom_eq
    (hRest : Follows r) :
    Cursor.separateFrom flow false b p r = { rest := r, position := p, fresh := b } := by
  refine separateFrom_token fun c hc hMem => ?_
  have hWord := hRest c hc
  simp only [List.mem_cons, List.not_mem_nil, or_false] at hMem
  rcases hMem with rfl | rfl | rfl | rfl | rfl <;>
    exact absurd hWord (by decide)

/- No word is the mark of a document. -/
theorem Follows.atMarker_eq
    (hRest : Follows r) :
    ({ rest := r, position := p, fresh := b } : Cursor).atMarker = false := by
  have hMarks : ∀ x, isWordChar x = false → Cursor.marks x r = false := by
    intro x hx
    unfold Cursor.marks
    split
    · simp [ne_of_isWordChar (hRest _ rfl) hx]
    · rfl
  simp [Cursor.atMarker, Cursor.atStart, Cursor.atStop,
    hMarks '-' (by decide), hMarks '.' (by decide)]

-- Scalars

/- The reader at the start of a line, in a column. -/
def AtLine
    (c : Cursor)
    (d : Nat)
    (r : List Char) : Prop :=
  c.rest = r ∧ c.column = d ∧ c.fresh = true

variable {t : List Char}

/- A word is read on to its end. -/
theorem plainFrom_word
    (hw : ∀ c ∈ w, isWordChar c = true) :
    plainFrom false m t .none p (w ++ r) =
      plainFrom false m (w.reverse ++ t) .none (p.afterAll w) r := by
  induction w generalizing t p with
  | nil => rfl
  | cons c w ih =>
    have hc : ∀ x, isWordChar x = false → c ≠ x := fun x =>
      ne_of_isWordChar (hw c (List.mem_cons_self ..))
    have hBlank : isBlank c = false := by
      simp [isBlank, hc ' ' (by decide), hc '\t' (by decide)]
    rw [List.cons_append, plainFrom]
    simp only [hc '\n' (by decide), hc ':' (by decide), hBlank,
      strayColon, endsPlain, Gap.onto, ne_eq, if_false,
      not_true_eq_false, false_and, Bool.false_and, Bool.or_false,
      beq_eq_false_iff_ne.mpr, not_false_iff, reduceCtorEq]
    rw [ih fun c hMem => hw c (List.mem_cons_of_mem _ hMem)]
    simp [Position.afterAll]

/- The blanks at the start of a line are no text. -/
theorem plainFrom_spaces
    {t : List Char} :
    plainFrom false m t (.breaks 0) p (List.replicate d ' ' ++ r) =
      plainFrom false m t (.breaks 0)
        (p.afterAll (List.replicate d ' ')) r := by
  induction d generalizing p with
  | zero => rfl
  | succ d ih =>
    rw [List.replicate_succ, List.cons_append, plainFrom, if_neg (by decide), if_pos (by decide),
      if_neg (by simp)]
    exact ih

/- A scalar ends before a line that is not indented more. -/
theorem plainFrom_break
    (hRest : Follows r)
    (hd : d < m) :
    ∃ c, plainFrom false m t .none p ('\n' :: (List.replicate d ' ' ++ r)) =
          some (String.ofList t.reverse, c) ∧
      AtLine c d r := by
  have hColumn := (Position.column_spaces (p.after '\n') d).trans (Nat.zero_add d)
  rw [plainFrom, if_pos rfl, Gap.addBreak, plainFrom_spaces]
  cases r with
  | nil => exact ⟨_, rfl, rfl, hColumn, rfl⟩
  | cons x r =>
    have hx : ∀ y, isWordChar y = false → x ≠ y := fun y =>
      ne_of_isWordChar (hRest x rfl)
    have hEnds : endsAfterGap false m ((p.after '\n').afterAll (List.replicate d ' '))
        (x :: r) = true := by
      simp [endsAfterGap, hColumn, hd]
    refine ⟨⟨x :: r, _, true⟩, ?_, rfl, hColumn, rfl⟩
    rw [plainFrom, if_neg (hx '\n' (by decide)),
      if_neg (by simp [isBlank, hx ' ' (by decide), hx '\t' (by decide)]),
      if_pos ⟨by simp, hEnds⟩]
    rfl

/- The colon after a key ends it. -/
theorem plainFrom_colon
    (hGap : gapAhead r = true) :
    plainFrom false m t .none p (':' :: r) = some (String.ofList t.reverse,
        { rest := ':' :: r, position := p, fresh := false }) := by
  simp [plainFrom, isBlank, strayColon, endsPlain, hGap, Gap.hasBreak]

/- A word is read as a plain scalar. -/
theorem inline?_word
    {n : Nat}
    {c : Cursor}
    (hw : IsWord w) :
    inline? m n { c with rest := w ++ r } = (plainFrom false m w.reverse .none
        (c.position.afterAll w) r).map fun v =>
          (word v.1, v.2.separate false) := by
  rcases hw with ⟨hNil, hw⟩
  rcases w with _ | ⟨x, w⟩
  · exact absurd rfl hNil
  have hx : ∀ y, isWordChar y = false → x ≠ y := fun y =>
    ne_of_isWordChar (hw x (List.mem_cons_self ..))
  have hMarks : ("-?: \t\n,[]\x7b\x7d#&*!|>'\"%@\x60".toList.all
      fun y => !isWordChar y) = true := by
    decide
  have hMark := fun y hy => hx y (by
    simpa using List.all_eq_true.mp hMarks y hy)
  simp at hMark
  have hStarts : startsPlain false x (w ++ r) = true := by
    simp [startsPlain, isBlank, isFlowMark, hMark]
  have hRead : inline? m n { c with rest := x :: w ++ r } =
      (plainFrom false m [] .none c.position (x :: w ++ r)).map fun v =>
          (word v.1, v.2.separate false) := by
    rw [List.cons_append]
    cases hText : plainFrom false m [] .none c.position (x :: (w ++ r)) <;>
      simp [inline?, Cursor.isAt, hMark, scalar?, hStarts, plain?, hText, word]
  rw [hRead, plainFrom_word hw, List.append_nil]

-- Values

/- The reader at the colon after a key. -/
def AtColon
    (c : Cursor)
    (depth : Nat)
    (r : List Char) : Prop :=
  c.rest = ':' :: r ∧ depth ≤ c.column ∧ c.fresh = false

/- A word that is short enough for a key. -/
def IsKey
    (w : List Char) : Prop :=
  IsWord w ∧ w.length ≤ 256

instance
    (w : List Char) : Decidable (IsKey w) :=
  inferInstanceAs (Decidable (_ ∧ _))

/- A key is read up to its colon. -/
theorem inline?_key
    {n : Nat}
    {c : Cursor}
    (hw : IsKey w)
    (hGap : gapAhead r = true)
    (hc : AtLine c d (w ++ ':' :: r)) :
    ∃ c', inline? m n c = some (word (String.ofList w), c') ∧
      isKey c c' = true ∧ AtColon c' d r := by
  rcases c with ⟨_, p, _⟩
  rcases hc with ⟨rfl, rfl, rfl⟩
  have hRead := inline?_word (c := ⟨[], p, true⟩) (m := m) (n := n) (r := ':' :: r) hw.1
  rw [plainFrom_colon hGap, Option.map_some, List.reverse_reverse] at hRead
  have hToken : (Cursor.mk (':' :: r) (p.afterAll w) false).separate
      false = ⟨':' :: r, p.afterAll w, false⟩ :=
    separateFrom_token (by simp [byteOrderMark])
  have hPlace := p.afterAll_word hw.1.2
  have hShort := hw.2
  refine ⟨_, hRead, ?_, ?_⟩
  · simp [isKey, hToken, Cursor.atMark, hGap, Position.keyReaches, hPlace.1]
    omega
  · rw [hToken]
    exact ⟨rfl, by simp [Cursor.column, hPlace.2.1], rfl⟩

/- A value that is written on the line of its key. -/
def IsLeaf
    (y : Yaml) : Prop :=
  (∃ t, y = word t ∧ IsWord t.toList) ∨ y = map []

/- What follows the colon of a key can be read back. -/
structure ReadsValue
    (depth : Nat)
    (y : Yaml) : Prop where
  clean : IsClean (blockValue depth y)
  reads : ∀ {n d r c},
    (blockValue depth y).length < n →
    Follows r → d ≤ depth →
    AtColon c depth
      (blockValue depth y ++ (List.replicate d ' ' ++ r)) →
    ∃ c', blockChild? depth n (c.blockDrop 1 false) =
        some (y, c') ∧
      AtLine c' d r

/- A line break and an indentation are passed over. -/
theorem separate_break
    (hRest : Follows r) :
    AtLine (Cursor.separateFrom false false b p ('\n' :: (List.replicate d ' ' ++ r))) d r := by
  rw [Cursor.separateFrom, if_pos rfl, separateFrom_spaces, hRest.separateFrom_eq]
  refine ⟨rfl, ?_, Bool.or_true _⟩
  exact (Position.column_spaces _ d).trans (Nat.zero_add d)

/- A line break after a colon leads to the next line. -/
theorem AtColon.blockDrop_break
    {c : Cursor}
    {depth : Nat}
    (hRest : Follows r)
    (hc : AtColon c depth ('\n' :: (List.replicate d ' ' ++ r))) :
    AtLine (c.blockDrop 1 false) d r := by
  rcases c with ⟨_, p, _⟩
  rcases hc with ⟨rfl, -, rfl⟩
  exact separate_break hRest

theorem AtLine.separate_eq
    {c : Cursor}
    (hRest : Follows r)
    (hc : AtLine c d r) :
    c.separate false = c := by
  rcases c with ⟨_, p, _⟩
  rcases hc with ⟨rfl, rfl, rfl⟩
  exact hRest.separateFrom_eq

/- A value on the line of its key is read to its end. -/
theorem IsLeaf.inline?_eq
    {y : Yaml}
    {n : Nat}
    (hy : IsLeaf y)
    (hRest : Follows r)
    (hd : d < m) :
    ∃ c', inline? m (n + 2) ⟨flowText y ++ '\n' :: (List.replicate d ' ' ++ r), p, b⟩ =
        some (y, c') ∧
      AtLine c' d r := by
  rcases hy with ⟨t, rfl, hText⟩ | rfl
  · rcases plainFrom_break (t := t.toList.reverse)
      (p := p.afterAll t.toList) hRest hd with ⟨c', hRead, hLine⟩
    refine ⟨c', ?_, hLine⟩
    have hWord := inline?_word (c := ⟨[], p, b⟩) (m := m) (n := n + 2)
      (r := '\n' :: (List.replicate d ' ' ++ r)) hText
    rw [hRead, Option.map_some, hLine.separate_eq hRest,
      List.reverse_reverse, String.ofList_toList] at hWord
    exact hWord
  · refine ⟨_, ?_, separate_break (b := false) (p := (p.skip 1).skip 1) hRest⟩
    have hBrace : Cursor.separateFrom true false false (p.skip 1)
          ('\x7d' :: '\n' :: (List.replicate d ' ' ++ r)) =
        ⟨_, _, _⟩ :=
      separateFrom_token (by simp [byteOrderMark])
    simp [inline?, Cursor.isAt, flowText, flowEntries, flowNode?,
      Cursor.atMarker, Cursor.atStart, Cursor.atStop,
      Cursor.marks, Cursor.flowDrop, Cursor.drop,
      Cursor.separate, flowEntries?, hBrace]

/- The text of such a value. -/
theorem IsLeaf.blockValue_eq
    {y : Yaml}
    (hy : IsLeaf y)
    (depth : Nat) :
    blockValue depth y = ' ' :: (flowText y ++ ['\n']) := by
  rcases hy with ⟨t, rfl, -⟩ | rfl <;> rfl

theorem IsLeaf.isClean_flowText
    {y : Yaml}
    (hy : IsLeaf y) :
    IsClean (flowText y) := by
  rcases hy with ⟨t, rfl, hText⟩ | rfl
  · exact isClean_of_word hText.2
  · decide

/- Its first character is a token. -/
theorem IsLeaf.separateFrom_eq
    {y : Yaml}
    (hy : IsLeaf y) :
    Cursor.separateFrom flow false b p (flowText y ++ r) = ⟨flowText y ++ r, p, b⟩ := by
  rcases hy with ⟨t, rfl, hText⟩ | rfl
  · exact hText.follows.separateFrom_eq
  · exact separateFrom_token (by simp [flowText, byteOrderMark])

/- A value on the line of its key can be read back. -/
theorem IsLeaf.readsValue
    {y : Yaml}
    (hy : IsLeaf y)
    (depth : Nat) :
    ReadsValue depth y where
  clean := by
    rw [hy.blockValue_eq]
    exact IsClean.append (w := [' ']) (by decide) (hy.isClean_flowText.append (by decide))
  reads := by
    intro n d r c hFuel hRest hd hc
    rw [hy.blockValue_eq] at hFuel hc
    rcases c with ⟨_, p, _⟩
    rcases hc with ⟨rfl, hColumn, rfl⟩
    have hLength : 0 < (flowText y).length := by
      rcases hy with ⟨t, rfl, hNil, -⟩ | rfl
      · exact List.length_pos_iff.mpr hNil
      · decide
    obtain ⟨n, rfl⟩ : ∃ k, n = k + 4 := ⟨n - 4, by
      simp at hFuel
      omega⟩
    have hDrop : (Cursor.mk (':' :: (' ' :: (flowText y ++ ['\n'])
          ++ (List.replicate d ' ' ++ r))) p false).blockDrop 1 false =
        ⟨flowText y ++ '\n' :: (List.replicate d ' ' ++ r), (p.skip 1).after ' ', false⟩ := by
      rw [List.cons_append, List.append_assoc]
      exact (separateFrom_spaces (d := 1)).trans hy.separateFrom_eq
    have hPlace : ((p.skip 1).after ' ').column = p.column + 2 := rfl
    rcases hy.inline?_eq (n := n) (b := false)
      (p := (p.skip 1).after ' ') hRest (Nat.lt_succ_of_le hd)
      with ⟨c', hRead, hLine⟩
    have hIndent : depth < p.column + 2 := Nat.lt_add_right 1 (Nat.lt_succ_of_le hColumn)
    refine ⟨c', ?_, hLine⟩
    rw [hDrop]
    simp [blockChild?, Cursor.atEnd, Cursor.atMarker,
      Cursor.atStart, Cursor.atStop, Cursor.column, hPlace,
      hIndent, blockNode?, Cursor.atEntry, hRead, isKey]

-- Mappings

/- The entries of a record. -/
def entries
    (fields : List (String × Yaml)) : List (Yaml × Yaml) :=
  fields.map fun (s, y) => (word s, y)

/- Names are words and values can be read back. -/
def Readable
    (depth : Nat)
    (fields : List (String × Yaml)) : Prop :=
  ∀ e ∈ fields, IsKey e.1.toList ∧ ReadsValue depth e.2

variable {depth n : Nat} {c : Cursor} {s : String} {y : Yaml} {fields : List (String × Yaml)}

theorem Readable.key
    (hFields : Readable depth ((s, y) :: fields)) :
    IsKey s.toList :=
  (hFields _ (List.mem_cons_self ..)).1

theorem Readable.value
    (hFields : Readable depth ((s, y) :: fields)) :
    ReadsValue depth y :=
  (hFields _ (List.mem_cons_self ..)).2

theorem Readable.tail
    {e : String × Yaml}
    (hFields : Readable depth (e :: fields)) :
    Readable depth fields :=
  fun e' hMem => hFields e' (List.mem_cons_of_mem _ hMem)

/- A value is not written at once after its colon. -/
theorem gapAhead_blockValue
    (depth : Nat)
    (y : Yaml) :
    gapAhead (blockValue depth y ++ r) = true := by
  unfold blockValue
  split <;> rfl

/- A line with a word is neither the end nor an item. -/
theorem AtLine.at_word
    (hw : IsWord w)
    (hc : AtLine c d (w ++ r)) :
    c.atEnd = false ∧ c.atMark '-' = false ∧ c.atMark '?' = false := by
  rcases c with ⟨_, p, _⟩
  rcases hc with ⟨rfl, rfl, rfl⟩
  rw [Cursor.atEnd, hw.follows.atMarker_eq]
  rcases w with _ | ⟨x, w⟩
  · exact absurd rfl hw.1
  · have hx : ∀ y, isWordChar y = false → x ≠ y := fun y =>
      ne_of_isWordChar (hw.2 x (List.mem_cons_self ..))
    simp [Cursor.atMark, hx '-' (by decide), hx '?' (by decide)]

/- A node at a key is a mapping. -/
theorem AtLine.blockNode?_eq
    (hName : IsKey s.toList)
    (hGap : gapAhead r = true)
    (hc : AtLine c d (s.toList ++ ':' :: r)) :
    ∃ c', AtColon c' d r ∧ blockNode? m (n + 1) c =
      (blockEntries? d n (word s) c').map fun v =>
          (map v.1, v.2) := by
  rcases inline?_key (m := m) (n := n) hName hGap hc with ⟨c', hRead, hKey, hColon⟩
  refine ⟨c', hColon, ?_⟩
  rcases hc.at_word hName.1 with ⟨-, hDash, hAsk⟩
  rw [String.ofList_toList] at hRead
  simp only [blockNode?, Cursor.atEntry, hDash, hAsk, hRead, hKey,
    hc.2.1, Bool.and_false, Bool.false_eq_true, if_false,
    Option.bind_eq_bind, Option.bind_some, if_true]
  cases blockEntries? d n (word s) c' <;> rfl

/- A mapping goes on with a key in its column. -/
theorem AtLine.moreEntries?_eq
    (hName : IsKey s.toList)
    (hGap : gapAhead r = true)
    (hc : AtLine c d (s.toList ++ ':' :: r)) :
    ∃ c', AtColon c' d r ∧ moreEntries? d (n + 1) c = blockEntries? d n (word s) c' := by
  rcases inline?_key (m := d + 1) (n := n) hName hGap hc with ⟨c', hRead, hKey, hColon⟩
  refine ⟨c', hColon, ?_⟩
  rcases hc.at_word hName.1 with ⟨hMore, -, hAsk⟩
  rw [String.ofList_toList] at hRead
  simp [moreEntries?, hMore, hAsk, hRead, hKey, hc.2.1, hc.2.2]

/- It ends before a line that is indented less. -/
theorem AtLine.moreEntries?_end
    (hEnd : r = [] ∨ d < depth)
    (hc : AtLine c d r) :
    moreEntries? depth (n + 1) c = some ([], c) := by
  have hStop : (c.atEnd || decide (c.column < depth)) = true := by
    rcases hEnd with rfl | hLess
    · simp [Cursor.atEnd, hc.1]
    · simp [hc.2.1, hLess]
  rw [moreEntries?, if_pos hStop]

/- The line of an entry, and what follows it. -/
theorem blockEntries_cons
    (depth : Nat)
    (y : Yaml)
    (fields : List (String × Yaml)) :
    blockEntries depth (entries ((s, y) :: fields)) ++ r =
      List.replicate depth ' ' ++ (s.toList ++ ':' :: (blockValue depth y ++
          (blockEntries depth (entries fields) ++ r))) := by
  simp [entries, blockEntries, flowText, word]

/- The reader takes at least two steps for an entry. -/
theorem exists_fuel
    (hName : IsKey s.toList)
    (hFuel : (blockEntries depth (entries ((s, y) :: fields))).length ≤ n) :
    ∃ k, (blockValue depth y).length + (blockEntries depth (entries fields)).length ≤ k ∧
      n = k + 2 := by
  have hPos := List.length_pos_iff.mpr hName.1.1
  have hLine := blockEntries_cons (s := s) (r := []) depth y fields
  simp only [List.append_nil] at hLine
  rw [hLine] at hFuel
  simp only [List.length_append, List.length_replicate, List.length_cons] at hFuel
  exact ⟨n - 2, by omega, by omega⟩

/- The entries of a mapping are read one after the other. -/
theorem Readable.blockEntries?_eq
    (hFields : Readable depth ((s, y) :: fields))
    (hFuel : (blockEntries depth (entries ((s, y) :: fields))).length ≤ n)
    (hRest : Follows r)
    (hd : d ≤ depth)
    (hEnd : r = [] ∨ d < depth)
    (hc : AtColon c depth (blockValue depth y ++
      (blockEntries depth (entries fields) ++ (List.replicate d ' ' ++ r)))) :
    ∃ c', blockEntries? depth n (word s) c = some (entries ((s, y) :: fields), c') ∧
      AtLine c' d r := by
  induction fields generalizing s y n c with
  | nil =>
    obtain ⟨n, hBound, rfl⟩ := exists_fuel hFields.key hFuel
    have hSteps : (blockValue depth y).length < n + 1 := by
      omega
    rcases hFields.value.reads hSteps hRest hd hc with ⟨c', hRead, hLine⟩
    refine ⟨c', ?_, hLine⟩
    simp [blockEntries?, hRead, hLine.moreEntries?_end hEnd, entries]
  | cons e fields ih =>
    rcases e with ⟨next, z⟩
    obtain ⟨n, hBound, rfl⟩ := exists_fuel hFields.key hFuel
    have hSteps : (blockValue depth y).length < n + 1 := by
      omega
    have hMore : (blockEntries depth (entries ((next, z) :: fields))).length ≤ n := by
      omega
    rw [blockEntries_cons] at hc
    rcases hFields.value.reads hSteps hFields.tail.key.1.follows
      (Nat.le_refl depth) hc with ⟨c', hRead, hLine⟩
    rcases hLine.moreEntries?_eq (n := n) hFields.tail.key (gapAhead_blockValue ..) with
      ⟨c'', hColon, hStep⟩
    rcases ih hFields.tail hMore hColon with ⟨last, hTail, hLast⟩
    refine ⟨last, ?_, hLast⟩
    simp [blockEntries?, hRead, hStep, hTail, entries]

/- The entries of a mapping keep to the usual characters. -/
theorem Readable.isClean_blockEntries
    (hFields : Readable depth fields) :
    IsClean (blockEntries depth (entries fields)) := by
  induction fields with
  | nil => simp [entries, blockEntries, IsClean]
  | cons e fields ih =>
    rcases e with ⟨s, y⟩
    have hSpaces : IsClean (List.replicate depth ' ') := by
      intro c hMem
      rw [List.eq_of_mem_replicate hMem]
      decide
    have hColon : IsClean [':'] := by decide
    have hName := isClean_of_word hFields.key.1.2
    have hLine := (((hSpaces.append hName).append hColon).append
      hFields.value.clean).append (ih hFields.tail)
    simpa [entries, blockEntries, flowText, word] using hLine

/- A mapping can be read back if its values can. -/
theorem Readable.readsValue
    (hFields : Readable (depth + 2) fields) :
    ReadsValue depth (record fields) := by
  rcases fields with _ | ⟨⟨s, y⟩, fields⟩
  · exact IsLeaf.readsValue (.inr rfl) depth
  have hText : blockValue depth (record ((s, y) :: fields)) =
      '\n' :: blockEntries (depth + 2) (entries ((s, y) :: fields)) :=
    rfl
  refine ⟨?_, ?_⟩
  · rw [hText]
    exact IsClean.append (w := ['\n']) (by decide) hFields.isClean_blockEntries
  · intro n d r c hFuel hRest hd hc
    rw [hText, List.length_cons] at hFuel
    rw [hText, List.cons_append, blockEntries_cons] at hc
    obtain ⟨n, rfl⟩ : ∃ k, n = k + 2 := ⟨n - 2, by omega⟩
    have hLine := hc.blockDrop_break hFields.key.1.follows
    rcases hLine.blockNode?_eq (m := depth + 1) (n := n) hFields.key (gapAhead_blockValue ..) with
      ⟨c', hColon, hNode⟩
    rcases hFields.blockEntries?_eq (n := n) (by omega)
      hRest (by omega) (.inr (by omega)) hColon with
      ⟨last, hRead, hLast⟩
    have hMore := (hLine.at_word hFields.key.1).1
    have hIndent : depth < (c.blockDrop 1 false).column := by
      rw [hLine.2.1]
      omega
    refine ⟨last, ?_, hLast⟩
    rw [blockChild?, if_neg (by rw [hMore]; decide), if_pos hIndent, hNode, hRead]
    rfl

-- Documents

/- A mapping is what its text is read as. -/
theorem Readable.parse?_render
    (hFields : Readable 0 fields) :
    parse? (record fields).render = some (record fields) := by
  rcases fields with _ | ⟨⟨s, y⟩, fields⟩
  · rfl
  have hClean := hFields.isClean_blockEntries
  have hText : (record ((s, y) :: fields)).render =
      String.ofList (blockEntries 0 (entries ((s, y) :: fields))) :=
    rfl
  generalize hcs : blockEntries 0 (entries ((s, y) :: fields)) = cs at hClean hText
  have hEntry := blockEntries_cons (s := s) (r := []) 0 y fields
  rw [hcs, List.append_nil, List.replicate_zero, List.nil_append] at hEntry
  have hLine : AtLine ⟨cs, {}, true⟩ 0 _ := ⟨hEntry, rfl, rfl⟩
  rcases hLine.blockNode?_eq (m := 0) (n := 4 * cs.length + 7) hFields.key
    (gapAhead_blockValue ..) with ⟨c', hColon, hNode⟩
  rcases hFields.blockEntries?_eq (d := 0) (r := []) (n := 4 * cs.length + 7) (by rw [hcs]; omega)
    (by simp [Follows]) (Nat.le_refl 0) (.inl rfl) hColon with
    ⟨last, hRead, hLast⟩
  have hMore := (hLine.at_word hFields.key.1).1
  have hToken := hLine.separate_eq (hEntry ▸ hFields.key.1.follows)
  have hMarks := hMore
  simp only [Cursor.atEnd, Cursor.atMarker, Bool.or_eq_false_iff] at hMarks
  have hDone : isFinished (4 * cs.length + 8) last = true := by
    simp [isFinished, hLast.1]
  rw [hRead, Option.map_some] at hNode
  simp only [parse?, hText, String.toList_ofList,
    hClean.unifyBreaks_eq, hClean.all_isPrintable, if_true,
    hToken, hMarks.2.1, hMarks.2.2, Bool.false_eq_true, if_false,
    document?, hMore, hNode, Option.bind_eq_bind,
    Option.bind_some, hDone]
  rfl

end Yaml

end HeapShape
