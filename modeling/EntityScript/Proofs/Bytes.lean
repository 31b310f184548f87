import EntityScript.Script
import EntityScript.Proofs.Line

/-! Texts as the bytes of their UTF-8 form. Scripts are scanned byte by byte, and pieces are cut out
of them at byte positions. `bytes` is the text as such a scan sees it, every byte a character of its
own. No scan tells one byte above the ASCII range from another, so it stops where the scan of the
characters stops, and never inside a character. -/

namespace EntityScript

namespace Text

def Fits (text : List Char) (position : Nat) : Prop :=
  (⟨position⟩ : String.Pos.Raw).IsValid (String.ofList text)

theorem size_eq (cs : List Char) : size cs = (String.ofList cs).utf8ByteSize := by
  induction cs with
  | nil => rfl
  | cons c cs ih =>
    rw [size, ih, String.ofList_cons]
    simp

theorem fits_iff {text : List Char} {position : Nat} :
    Fits text position ↔ ∃ before after, text = before ++ after ∧ position = size before := by
  rw [Fits, String.Pos.Raw.isValid_iff_exists_append]
  constructor
  · rintro ⟨before, after, htext, hposition⟩
    refine ⟨before.toList, after.toList, ?_, ?_⟩
    · rw [← String.toList_append, ← htext, String.toList_ofList]
    · rw [size_eq, String.ofList_toList]
      exact congrArg String.Pos.Raw.byteIdx hposition
  · rintro ⟨before, after, rfl, rfl⟩
    exact ⟨String.ofList before, String.ofList after, String.ofList_append, by rw [size_eq]; rfl⟩

theorem fits_positionOf {text rest : List Char} (h : rest <:+ text) : Fits text (positionOf text rest) := by
  obtain ⟨before, rfl⟩ := h
  exact fits_iff.2 ⟨before, rest, rfl, positionOf_append before rest⟩

/-- The place at a position that fits is what follows the position. -/
theorem Fits.ofPosition {text : List Char} {position : Nat} (h : Fits text position) :
    (Place.ofPosition position text).offset = 0 := by
  obtain ⟨before, after, rfl, rfl⟩ := fits_iff.1 h
  rw [Place.ofPosition_size_append]

/-- The bytes of a text, each as the character with its number. -/
def bytes (cs : List Char) : List Char :=
  cs.flatMap fun c => (String.utf8EncodeChar c).map fun b => Char.ofNat b.toNat

theorem bytes_cons (c : Char) (cs : List Char) : bytes (c :: cs) = bytes [c] ++ bytes cs := by
  simp [bytes]

theorem bytes_append (cs ds : List Char) : bytes (cs ++ ds) = bytes cs ++ bytes ds :=
  List.flatMap_append

theorem length_bytes (cs : List Char) : (bytes cs).length = size cs := by
  induction cs with
  | nil => rfl
  | cons c cs ih => rw [bytes_cons, List.length_append, ih, size]; simp [bytes]

def IsAscii (c : Char) : Prop := c.toNat < 128

instance (c : Char) : Decidable (IsAscii c) := by unfold IsAscii; infer_instance

theorem bytes_ascii {c : Char} (h : IsAscii c) : bytes [c] = [c] := by
  have hle : c.val.toNat ≤ 127 := Nat.le_of_lt_succ h
  have hmod : c.val.toNat % 256 = c.val.toNat := Nat.mod_eq_of_lt (by omega)
  simp only [bytes, List.flatMap_cons, List.flatMap_nil, List.append_nil, String.utf8EncodeChar, hle, if_true,
    List.map_cons, List.map_nil, UInt8.toNat_ofNat']
  rw [hmod]
  exact congrArg (fun d => [d]) (Char.ofNat_toNat c)

/-- Of a character beyond ASCII, all bytes are beyond ASCII. -/
theorem bytes_beyond {c d : Char} (h : ¬IsAscii c) (hd : d ∈ bytes [c]) : ¬IsAscii d := by
  have hle : ¬c.val.toNat ≤ 127 := fun hle => h (Nat.lt_succ_of_le hle)
  have hbyte : ∀ n, 128 ≤ n → n < 256 → ¬IsAscii (Char.ofNat (UInt8.ofNat n).toNat) := by
    intro n hlow hhigh
    have hvalid : n.isValidChar := .inl (by omega)
    have hnumber : (Char.ofNat n).toNat = n := by
      rw [Char.ofNat, dif_pos hvalid]
      rfl
    rw [UInt8.toNat_ofNat', Nat.mod_eq_of_lt hhigh, IsAscii, hnumber]
    omega
  simp only [bytes, List.flatMap_cons, List.flatMap_nil, List.append_nil, String.utf8EncodeChar, hle, if_false,
    List.mem_map] at hd
  obtain ⟨b, hb, rfl⟩ := hd
  split at hb
  · simp only [List.mem_cons, List.not_mem_nil, or_false] at hb
    rcases hb with rfl | rfl <;> exact hbyte _ (by omega) (by omega)
  · split at hb
    · simp only [List.mem_cons, List.not_mem_nil, or_false] at hb
      rcases hb with rfl | rfl | rfl <;> exact hbyte _ (by omega) (by omega)
    · simp only [List.mem_cons, List.not_mem_nil, or_false] at hb
      rcases hb with rfl | rfl | rfl | rfl <;> exact hbyte _ (by omega) (by omega)

theorem bytes_ne_nil (c : Char) : bytes [c] ≠ [] := by
  intro hnil
  have hlength := length_bytes [c]
  rw [hnil] at hlength
  have hpos := c.utf8Size_pos
  simp only [List.length_nil, size] at hlength
  omega

/-- The text seen from its first character: itself, if it is one of ASCII, or else bytes beyond it. -/
theorem bytes_cases (c : Char) (cs : List Char) :
    (IsAscii c ∧ bytes (c :: cs) = c :: bytes cs) ∨
      ¬IsAscii c ∧ ∃ b bs, bytes (c :: cs) = b :: bs ++ bytes cs ∧ ∀ d ∈ b :: bs, ¬IsAscii d := by
  by_cases hc : IsAscii c
  · exact .inl ⟨hc, by rw [bytes_cons, bytes_ascii hc]; rfl⟩
  · obtain ⟨b, bs, hbs⟩ := List.exists_cons_of_ne_nil (bytes_ne_nil c)
    refine .inr ⟨hc, b, bs, by rw [bytes_cons, hbs], fun d hd => bytes_beyond hc ?_⟩
    rw [hbs]
    exact hd

/-- The scan does not tell characters beyond ASCII from each other. -/
def Blunt (p : Char → Bool) : Prop := ∃ b, ∀ c, ¬IsAscii c → p c = b

theorem Blunt.bytes_eq {p : Char → Bool} (h : Blunt p) {c d : Char} (hd : d ∈ bytes [c]) : p d = p c := by
  obtain ⟨b, hb⟩ := h
  by_cases hc : IsAscii c
  · rw [bytes_ascii hc, List.mem_singleton] at hd
    rw [hd]
  · rw [hb c hc, hb d (bytes_beyond hc hd)]

theorem takeWhile_bytes {p : Char → Bool} (h : Blunt p) (cs : List Char) :
    (bytes cs).takeWhile p = bytes (cs.takeWhile p) := by
  induction cs with
  | nil => rfl
  | cons c cs ih =>
    rw [bytes_cons]
    cases hc : p c with
    | true =>
      have hall : ∀ d ∈ bytes [c], p d = true := fun d hd => (h.bytes_eq hd).trans hc
      rw [List.takeWhile_append_of_pos hall, ih, List.takeWhile_cons_of_pos hc, ← bytes_cons]
    | false =>
      obtain ⟨b, bs, hbs⟩ := List.exists_cons_of_ne_nil (bytes_ne_nil c)
      have hb : p b = false := (h.bytes_eq (by rw [hbs]; exact List.mem_cons_self)).trans hc
      rw [hbs, List.cons_append, List.takeWhile_cons_of_neg (by simp [hb]), List.takeWhile_cons_of_neg (by simp [hc])]
      rfl

theorem dropWhile_bytes {p : Char → Bool} (h : Blunt p) (cs : List Char) :
    (bytes cs).dropWhile p = bytes (cs.dropWhile p) := by
  have hsplit : (bytes cs).takeWhile p ++ (bytes cs).dropWhile p =
      bytes (cs.takeWhile p) ++ bytes (cs.dropWhile p) := by
    rw [List.takeWhile_append_dropWhile, ← bytes_append, List.takeWhile_append_dropWhile]
  rw [takeWhile_bytes h] at hsplit
  exact List.append_cancel_left hsplit

/-- What is passed over one by one is passed over as a whole. -/
theorem pass_beyond {scan : List Char → List Char} (hscan : ∀ c cs, ¬IsAscii c → scan (c :: cs) = scan cs)
    {l : List Char} (hl : ∀ c ∈ l, ¬IsAscii c) (cs : List Char) : scan (l ++ cs) = scan cs := by
  induction l with
  | nil => rfl
  | cons c l ih =>
    rw [List.forall_mem_cons] at hl
    rw [List.cons_append, hscan _ _ hl.1]
    exact ih hl.2

theorem ne_of_ascii {c d : Char} (hc : ¬IsAscii c) (hd : IsAscii d) : (c == d) = false := by
  rw [beq_eq_false_iff_ne]
  rintro rfl
  exact hc hd

end Text

namespace Reading

open Text

theorem isSeparator_beyond {c : Char} (h : ¬IsAscii c) : isSeparator c = false := by
  simp only [isSeparator, ne_of_ascii h (show IsAscii ' ' by decide), ne_of_ascii h (show IsAscii '\t' by decide),
    ne_of_ascii h (show IsAscii '\r' by decide), ne_of_ascii h (show IsAscii '(' by decide),
    ne_of_ascii h (show IsAscii ')' by decide), ne_of_ascii h (show IsAscii ',' by decide), Bool.or_false]

theorem isWordChar_beyond {c : Char} (h : ¬IsAscii c) : isWordChar c = true := by
  rw [isWordChar, isSeparator_beyond h, bne, ne_of_ascii h (show IsAscii '\n' by decide)]
  rfl

theorem isQuotedChar_beyond {c : Char} (h : ¬IsAscii c) : isQuotedChar c = true := by
  simp only [isQuotedChar, bne, ne_of_ascii h (show IsAscii '"' by decide),
    ne_of_ascii h (show IsAscii '\n' by decide), Bool.not_false, Bool.and_true]

theorem isCommandChar_beyond {c : Char} (h : ¬IsAscii c) : isCommandChar c = true := by
  simp only [isCommandChar, isWordChar_beyond h, bne, ne_of_ascii h (show IsAscii '{' by decide),
    ne_of_ascii h (show IsAscii '}' by decide), Bool.not_false, Bool.and_true]

theorem blunt_other {d : Char} (hd : IsAscii d) : Blunt (· != d) :=
  ⟨true, fun c hc => by simp only [bne, ne_of_ascii hc hd, Bool.not_false]⟩

theorem atComment_cons (c : Char) (cs : List Char) :
    atComment (c :: cs) = (c == '/' && cs.head? == some '/') := by
  unfold atComment
  split
  · rename_i heq
    cases heq
    rfl
  · rename_i hnot
    rw [eq_comm, Bool.and_eq_false_iff, beq_eq_false_iff_ne, beq_eq_false_iff_ne]
    by_contra hboth
    rw [not_or, not_not, not_not] at hboth
    obtain ⟨more, rfl⟩ := List.head?_eq_some_iff.1 hboth.2
    exact hnot more (by rw [hboth.1])

theorem head?_bytes {d : Char} (hd : IsAscii d) (cs : List Char) :
    ((bytes cs).head? == some d) = (cs.head? == some d) := by
  cases cs with
  | nil => rfl
  | cons c cs =>
    rcases bytes_cases c cs with ⟨-, hbytes⟩ | ⟨hc, b, bs, hbytes, hbeyond⟩
    · rw [hbytes]
      rfl
    · rw [hbytes]
      exact (ne_of_ascii (hbeyond b List.mem_cons_self) hd).trans (ne_of_ascii hc hd).symm

theorem atComment_beyond {c : Char} (h : ¬IsAscii c) (cs : List Char) : atComment (c :: cs) = false := by
  rw [atComment_cons, ne_of_ascii h (show IsAscii '/' by decide), Bool.false_and]

theorem atComment_bytes (c : Char) (cs : List Char) : atComment (c :: bytes cs) = atComment (c :: cs) := by
  rw [atComment_cons, atComment_cons, head?_bytes (by decide)]

theorem blunt_isSeparator : Blunt isSeparator := ⟨false, fun _ => isSeparator_beyond⟩

theorem blunt_isWordChar : Blunt isWordChar := ⟨true, fun _ => isWordChar_beyond⟩

theorem blunt_isQuotedChar : Blunt isQuotedChar := ⟨true, fun _ => isQuotedChar_beyond⟩

theorem blunt_isCommandChar : Blunt isCommandChar := ⟨true, fun _ => isCommandChar_beyond⟩

theorem dropQuote_cons (c : Char) (cs : List Char) :
    dropQuote (c :: cs) = if c = '"' then cs else c :: cs := by
  unfold dropQuote
  split
  · rename_i heq
    cases heq
    rfl
  · rename_i hnot
    rw [if_neg]
    rintro rfl
    exact hnot cs rfl

theorem dropQuote_bytes (cs : List Char) : dropQuote (bytes cs) = bytes (dropQuote cs) := by
  cases cs with
  | nil => rfl
  | cons c cs =>
    rcases bytes_cases c cs with ⟨-, hbytes⟩ | ⟨hc, b, bs, hbytes, hbeyond⟩
    · rw [hbytes, dropQuote_cons, dropQuote_cons]
      split
      · rfl
      · rw [hbytes]
    · have hb : b ≠ '"' := beq_eq_false_iff_ne.1 (ne_of_ascii (hbeyond b List.mem_cons_self) (by decide))
      have hcq : c ≠ '"' := beq_eq_false_iff_ne.1 (ne_of_ascii hc (by decide))
      rw [hbytes, List.cons_append, dropQuote_cons, dropQuote_cons, if_neg hb, if_neg hcq, hbytes]
      rfl

def Token.bytes (t : Token) : Token := ⟨Text.bytes t.word, Text.bytes t.start, Text.bytes t.rest⟩

/-- The scan of the bytes finds the word that is there to read. -/
theorem nextToken_bytes (cs : List Char) : nextToken (bytes cs) = (nextToken cs).map Token.bytes := by
  unfold nextToken
  rw [dropWhile_bytes blunt_isSeparator]
  cases cs.dropWhile isSeparator with
  | nil => rfl
  | cons c rest =>
    rcases bytes_cases c rest with ⟨hc, hbytes⟩ | ⟨hc, b, bs, hbytes, hbeyond⟩
    · rw [hbytes]
      dsimp only
      rw [atComment_bytes]
      split
      · rfl
      split
      · rw [Option.map_some, Token.bytes, takeWhile_bytes blunt_isQuotedChar,
          dropWhile_bytes blunt_isQuotedChar, dropQuote_bytes, hbytes]
      · rw [Option.map_some, Token.bytes, takeWhile_bytes blunt_isWordChar, dropWhile_bytes blunt_isWordChar,
          hbytes, bytes_cons c, bytes_ascii hc]
        rfl
    · have hb := hbeyond b List.mem_cons_self
      have hword : (bytes (c :: rest)).takeWhile isWordChar = bytes (c :: rest.takeWhile isWordChar) := by
        rw [takeWhile_bytes blunt_isWordChar, List.takeWhile_cons_of_pos (isWordChar_beyond hc)]
      have hrest : (bytes (c :: rest)).dropWhile isWordChar = bytes (rest.dropWhile isWordChar) := by
        rw [dropWhile_bytes blunt_isWordChar, List.dropWhile_cons_of_pos (isWordChar_beyond hc)]
      have hnot : ∀ d, ¬IsAscii d → ∀ ds, ¬(d = '\n' || atComment (d :: ds)) = true ∧ d ≠ '"' := by
        intro d hd ds
        have hbreak := beq_eq_false_iff_ne.1 (ne_of_ascii hd (show IsAscii '\n' by decide))
        have hquote := beq_eq_false_iff_ne.1 (ne_of_ascii hd (show IsAscii '"' by decide))
        simp [hbreak, hquote, atComment_beyond hd]
      rw [hbytes, List.cons_append, List.takeWhile_cons_of_pos (isWordChar_beyond hb)] at hword
      rw [hbytes, List.cons_append, List.dropWhile_cons_of_pos (isWordChar_beyond hb)] at hrest
      rw [hbytes, List.cons_append]
      dsimp only
      rw [if_neg (hnot b hb _).1, if_neg (hnot b hb []).2, if_neg (hnot c hc _).1, if_neg (hnot c hc []).2, hword,
        hrest, Option.map_some, Token.bytes, hbytes]
      rfl

theorem dropFiller_beyond {c : Char} (h : ¬IsAscii c) (inComment : Bool) (cs : List Char) :
    dropFiller inComment (c :: cs) = if inComment then dropFiller true cs else c :: cs := by
  have hbreak : c ≠ '\n' := beq_eq_false_iff_ne.1 (ne_of_ascii h (by decide))
  rw [dropFiller, if_neg hbreak, isSeparator_beyond h, atComment_beyond h]
  rfl

theorem dropFiller_bytes (inComment : Bool) (cs : List Char) :
    dropFiller inComment (bytes cs) = bytes (dropFiller inComment cs) := by
  induction cs generalizing inComment with
  | nil => rfl
  | cons c cs ih =>
    rcases bytes_cases c cs with ⟨hc, hbytes⟩ | ⟨hc, b, bs, hbytes, hbeyond⟩
    · rw [hbytes, dropFiller, dropFiller, atComment_bytes, ih, ih, ← hbytes]
      split_ifs <;> rfl
    · rw [dropFiller_beyond hc, hbytes, List.cons_append, dropFiller_beyond (hbeyond b List.mem_cons_self)]
      cases inComment with
      | false => exact hbytes.symm
      | true =>
        have hpass := pass_beyond (fun c cs hc => dropFiller_beyond hc true cs)
          (fun d hd => hbeyond d (List.mem_cons_of_mem b hd)) (bytes cs)
        rw [if_pos rfl, if_pos rfl, hpass, ih]

/-- The scan of the bytes finds the command word that is there to read. -/
theorem takeCommand_bytes (cs : List Char) :
    takeCommand (bytes cs) = (bytes (takeCommand cs).1, bytes (takeCommand cs).2) := by
  unfold takeCommand
  rw [dropFiller_bytes]
  cases dropFiller false cs with
  | nil => rfl
  | cons c rest =>
    have hbrace : ∀ d, ¬IsAscii d → ¬(d = '{' || d = '}') = true := by
      intro d hd
      have hopen := beq_eq_false_iff_ne.1 (ne_of_ascii hd (show IsAscii '{' by decide))
      have hclose := beq_eq_false_iff_ne.1 (ne_of_ascii hd (show IsAscii '}' by decide))
      simp [hopen, hclose]
    rcases bytes_cases c rest with ⟨hc, hbytes⟩ | ⟨hc, b, bs, hbytes, hbeyond⟩
    · rw [hbytes]
      dsimp only
      split
      · rw [bytes_ascii hc]
      · rw [takeWhile_bytes blunt_isCommandChar, dropWhile_bytes blunt_isCommandChar, bytes_cons c, bytes_ascii hc]
        rfl
    · have hb := hbeyond b List.mem_cons_self
      have hword : (bytes (c :: rest)).takeWhile isCommandChar = bytes (c :: rest.takeWhile isCommandChar) := by
        rw [takeWhile_bytes blunt_isCommandChar, List.takeWhile_cons_of_pos (isCommandChar_beyond hc)]
      have hrest : (bytes (c :: rest)).dropWhile isCommandChar = bytes (rest.dropWhile isCommandChar) := by
        rw [dropWhile_bytes blunt_isCommandChar, List.dropWhile_cons_of_pos (isCommandChar_beyond hc)]
      rw [hbytes, List.cons_append, List.takeWhile_cons_of_pos (isCommandChar_beyond hb)] at hword
      rw [hbytes, List.cons_append, List.dropWhile_cons_of_pos (isCommandChar_beyond hb)] at hrest
      rw [hbytes, List.cons_append]
      dsimp only
      rw [if_neg (hbrace b hb), if_neg (hbrace c hc), hword, hrest]

/-- The scan of the bytes finds the end of the line. -/
theorem dropLine_bytes (cs : List Char) : dropLine (bytes cs) = bytes (dropLine cs) :=
  dropWhile_bytes (blunt_other (by decide)) cs

theorem dropBlock_beyond {c : Char} (h : ¬IsAscii c) (inside : Inside) (openBlocks : Nat) (cs : List Char) :
    dropBlock inside openBlocks (c :: cs) = dropBlock inside openBlocks cs := by
  have hbreak : c ≠ '\n' := beq_eq_false_iff_ne.1 (ne_of_ascii h (by decide))
  have hquote : c ≠ '"' := beq_eq_false_iff_ne.1 (ne_of_ascii h (by decide))
  have hopen : c ≠ '{' := beq_eq_false_iff_ne.1 (ne_of_ascii h (by decide))
  have hclose : c ≠ '}' := beq_eq_false_iff_ne.1 (ne_of_ascii h (by decide))
  rw [dropBlock.eq_def]
  cases inside with
  | comment => simp only [hbreak, if_false]
  | quotes => simp only [isQuotedChar_beyond h, if_true]
  | code =>
    simp only [atComment_beyond h, hquote, hopen, hclose, Bool.false_eq_true, if_false]

/-- The scan of the bytes finds the end of the block. -/
theorem dropBlock_bytes (inside : Inside) (openBlocks : Nat) (cs : List Char) :
    dropBlock inside openBlocks (bytes cs) = bytes (dropBlock inside openBlocks cs) := by
  induction cs generalizing inside openBlocks with
  | nil => rfl
  | cons c cs ih =>
    rcases bytes_cases c cs with ⟨-, hbytes⟩ | ⟨hc, b, bs, hbytes, hbeyond⟩
    · rw [hbytes, dropBlock.eq_def, dropBlock.eq_def inside openBlocks (c :: cs)]
      cases inside with
      | comment | quotes => exact ih _ _
      | code =>
        simp only [atComment_bytes, ih]
        split_ifs
        · rfl
        · rfl
        · rfl
        · cases openBlocks <;> rfl
        · rfl
    · have hpass := pass_beyond (fun c cs hc => dropBlock_beyond hc inside openBlocks cs) hbeyond (bytes cs)
      rw [hbytes, hpass, dropBlock_beyond hc, ih]

end Reading

namespace Text

/-- With this much left of its bytes, a text is between two of its characters. -/
theorem fits_left {text left : List Char} (h : left <:+ text) :
    Fits text ((bytes text).length - (bytes left).length) := by
  obtain ⟨before, rfl⟩ := h
  refine fits_iff.2 ⟨before, left, rfl, ?_⟩
  rw [length_bytes, length_bytes, size_append]
  omega

/-- The part of the text between two positions, both of which fit. -/
structure Cuts (text : List Char) (slice : Nat × Nat) (part : List Char) : Prop where
  le : slice.1 ≤ slice.2
  start : Fits text slice.1
  stop : Fits text slice.2
  bytes_eq : bytes part = ((bytes text).take slice.2).drop slice.1

theorem cuts_of_append {text before part after : List Char} {slice : Nat × Nat}
    (htext : text = before ++ part ++ after) (hstart : slice.1 = size before)
    (hstop : slice.2 = size before + size part) : Cuts text slice part := by
  obtain ⟨start, stop⟩ := slice
  dsimp only at hstart hstop
  subst htext hstart hstop
  refine ⟨Nat.le_add_right _ _, fits_iff.2 ⟨before, part ++ after, List.append_assoc _ _ _, rfl⟩,
    fits_iff.2 ⟨before ++ part, after, rfl, (size_append _ _).symm⟩, ?_⟩
  rw [bytes_append, ← size_append, ← length_bytes (before ++ part), List.take_left' rfl, bytes_append,
    ← length_bytes before, List.drop_left' rfl]

end Text

namespace Reading

open Text

def Token.slice (scanned : List Char) (t : Token) : Nat × Nat :=
  let first := scanned.length - t.start.length
  let start := if t.start.head? == some '"' then first + 1 else first
  (start, start + t.word.length)

def commandSlice (scanned left : List Char) : Nat × Nat :=
  let stop := scanned.length - (takeCommand left).2.length
  (stop - (takeCommand left).1.length, stop)

/-- The slices that are cut out of a word of this length to fill in variables, with `left` still to look
at: around the first tilde, and around the one after it. -/
inductive ExpandSlice (length : Nat) : List Char → Nat × Nat → Prop
  | before {left after : List Char} {tilde : Char} (h : left.dropWhile (· != '~') = tilde :: after) :
    ExpandSlice length left (length - left.length, length - after.length - 1)
  | after {left after : List Char} {tilde : Char} (h : left.dropWhile (· != '~') = tilde :: after) :
    ExpandSlice length left (length - after.length, length)
  | name {left after more : List Char} {tilde closing : Char}
    (h : left.dropWhile (· != '~') = tilde :: after) (hclose : after.dropWhile (· != '~') = closing :: more) :
    ExpandSlice length left (length - after.length, length - more.length - 1)
  | rest {left after more : List Char} {tilde closing : Char}
    (h : left.dropWhile (· != '~') = tilde :: after) (hclose : after.dropWhile (· != '~') = closing :: more) :
    ExpandSlice length left (length - more.length, length)
  | unclosed {left after : List Char} {tilde : Char} (h : left.dropWhile (· != '~') = tilde :: after)
    (hopen : after.dropWhile (· != '~') = []) : ExpandSlice length left (length - after.length - 1, length)
  | later {left after more : List Char} {tilde closing : Char} {slice : Nat × Nat}
    (h : left.dropWhile (· != '~') = tilde :: after) (hclose : after.dropWhile (· != '~') = closing :: more)
    (hslice : ExpandSlice length more slice) : ExpandSlice length left slice

theorem start_of_nextToken {cs : List Char} {t : Token} (h : nextToken cs = some t) :
    t.start.head? ≠ some '"' ∧ t.start = t.word ++ t.rest ∨ ∃ more, t.start = '"' :: (t.word ++ more) := by
  obtain ⟨c, rest, -, -, ⟨rfl, rfl⟩ | ⟨hquote, rfl⟩⟩ := nextToken_cases h
  · exact .inr ⟨rest.dropWhile isQuotedChar, by rw [List.takeWhile_append_dropWhile]⟩
  · refine .inl ⟨fun hhead => hquote (Option.some.inj hhead), ?_⟩
    rw [List.cons_append, List.takeWhile_append_dropWhile]

theorem token_cuts {text cs : List Char} (hcs : cs <:+ text) {t : Token} (h : nextToken cs = some t) :
    Cuts text (t.bytes.slice (bytes text)) t.word := by
  obtain ⟨before, htext⟩ := (nextToken_suffix h).2.trans hcs
  have hfirst : (bytes text).length - t.bytes.start.length = size before := by
    rw [Token.bytes, length_bytes, length_bytes, ← htext, size_append]
    omega
  have hword : t.bytes.word.length = size t.word := length_bytes t.word
  have hhead : (t.bytes.start.head? == some '"') = (t.start.head? == some '"') := head?_bytes (by decide) t.start
  rcases start_of_nextToken h with ⟨hhead', hstart⟩ | ⟨more, hstart⟩
  · rw [beq_eq_false_iff_ne.2 hhead'] at hhead
    refine cuts_of_append (by rw [← htext, hstart, List.append_assoc]) ?_ ?_
    · simp only [Token.slice, hhead, hfirst, Bool.false_eq_true, if_false]
    · simp only [Token.slice, hhead, hfirst, hword, Bool.false_eq_true, if_false]
  · have hquoted : (t.start.head? == some '"') = true := by rw [hstart]; rfl
    rw [hquoted] at hhead
    have hquote : size (before ++ ['"']) = size before + 1 := by
      rw [size_append]
      rfl
    refine cuts_of_append (by rw [← htext, hstart, List.append_cons, ← List.append_assoc]) ?_ ?_
    · simp only [Token.slice, hhead, hfirst, hquote, if_true]
    · simp only [Token.slice, hhead, hfirst, hword, hquote, if_true]

theorem takeCommand_append (cs : List Char) : (takeCommand cs).1 ++ (takeCommand cs).2 = dropFiller false cs := by
  unfold takeCommand
  split
  · rename_i hnil
    rw [hnil]
    rfl
  · rename_i c rest hcons
    split
    · rw [hcons]
      rfl
    · rw [hcons, List.cons_append, List.takeWhile_append_dropWhile]

theorem command_cuts {text cs : List Char} (hcs : cs <:+ text) :
    Cuts text (commandSlice (bytes text) (bytes cs)) (takeCommand cs).1 := by
  obtain ⟨before, htext⟩ := (dropFiller_suffix false cs).trans hcs
  rw [← takeCommand_append, ← List.append_assoc] at htext
  have hsize : size text = size before + size (takeCommand cs).1 + size (takeCommand cs).2 := by
    rw [← htext, size_append, size_append]
  refine cuts_of_append htext.symm ?_ ?_
  · rw [commandSlice, takeCommand_bytes, length_bytes, length_bytes, length_bytes]
    dsimp only
    omega
  · rw [commandSlice, takeCommand_bytes, length_bytes, length_bytes]
    dsimp only
    omega

/-- What the bytes of a text leave from their first tilde on. -/
theorem of_dropWhile_tilde {left : List Char} {rest : List Char} {tilde : Char}
    (h : (bytes left).dropWhile (· != '~') = tilde :: rest) :
    ∃ front after, left = front ++ '~' :: after ∧ rest = bytes after := by
  rw [dropWhile_bytes (blunt_other (by decide))] at h
  cases hleft : left.dropWhile (· != '~') with
  | nil =>
    rw [hleft] at h
    cases h
  | cons c after =>
    obtain rfl := eq_of_dropWhile_ne hleft
    rw [hleft, bytes_cons, bytes_ascii (by decide)] at h
    refine ⟨left.takeWhile (· != '~'), after, ?_, (List.cons.inj h).2.symm⟩
    rw [← hleft, List.takeWhile_append_dropWhile]

/-- Filling in variables cuts the word at its ends and at tildes only. -/
theorem expand_cuts {word before left : List Char} {slice : Nat × Nat} (hword : word = before ++ left)
    (h : ExpandSlice (bytes word).length (bytes left) slice) : ∃ part, Cuts word slice part := by
  have htilde : '~'.utf8Size = 1 := rfl
  generalize hscanned : bytes left = scanned at h
  induction h generalizing before left with
  | before h =>
    subst hscanned
    obtain ⟨front, after, rfl, rfl⟩ := of_dropWhile_tilde h
    refine ⟨front, cuts_of_append (hword.trans (List.append_assoc _ _ _).symm) ?_ ?_⟩ <;>
      simp only [hword, length_bytes, size_append, size, htilde] <;> omega
  | after h =>
    subst hscanned
    obtain ⟨front, after, rfl, rfl⟩ := of_dropWhile_tilde h
    have hsplit : word = (before ++ front ++ ['~']) ++ after ++ [] := by simp [hword]
    refine ⟨after, cuts_of_append hsplit ?_ ?_⟩ <;>
      simp only [hword, length_bytes, size_append, size, htilde] <;> omega
  | name h hclose =>
    subst hscanned
    obtain ⟨front, after, rfl, rfl⟩ := of_dropWhile_tilde h
    obtain ⟨name, more, rfl, rfl⟩ := of_dropWhile_tilde hclose
    have hsplit : word = (before ++ front ++ ['~']) ++ name ++ '~' :: more := by simp [hword]
    refine ⟨name, cuts_of_append hsplit ?_ ?_⟩ <;>
      simp only [hword, length_bytes, size_append, size, htilde] <;> omega
  | rest h hclose =>
    subst hscanned
    obtain ⟨front, after, rfl, rfl⟩ := of_dropWhile_tilde h
    obtain ⟨name, more, rfl, rfl⟩ := of_dropWhile_tilde hclose
    have hsplit : word = (before ++ front ++ '~' :: name ++ ['~']) ++ more ++ [] := by simp [hword]
    refine ⟨more, cuts_of_append hsplit ?_ ?_⟩ <;>
      simp only [hword, length_bytes, size_append, size, htilde] <;> omega
  | unclosed h hopen =>
    subst hscanned
    obtain ⟨front, after, rfl, rfl⟩ := of_dropWhile_tilde h
    have hsplit : word = (before ++ front) ++ '~' :: after ++ [] := by simp [hword]
    refine ⟨'~' :: after, cuts_of_append hsplit ?_ ?_⟩ <;>
      simp only [hword, length_bytes, size_append, size, htilde] <;> omega
  | later h hclose _ ih =>
    subst hscanned
    obtain ⟨front, after, rfl, rfl⟩ := of_dropWhile_tilde h
    obtain ⟨name, more, rfl, rfl⟩ := of_dropWhile_tilde hclose
    have hsplit : word = (before ++ front ++ '~' :: name ++ ['~']) ++ more := by simp [hword]
    exact ih hsplit rfl

end Reading

open Reading in
/-- A scan of the bytes from the position on finds what there is to read in `rest`. When it takes a word,
fills the word in or takes a command word, it cuts between characters only; and where it goes on, behind
words, at the end of the line or behind a block that it skips, the position fits too. -/
structure Text.ReadsFit (text rest : List Char) (position : Nat) : Prop where
  fits : Fits text position
  left : (bytes text).drop position = bytes rest
  word : ∀ token, nextToken (bytes rest) = some token →
    Fits text ((bytes text).length - token.start.length) ∧
      Fits text ((bytes text).length - token.rest.length) ∧
      ∃ t, nextToken rest = some t ∧ Cuts text (token.slice (bytes text)) t.word ∧
        ∀ slice, ExpandSlice (bytes t.word).length (bytes t.word) slice → ∃ part, Cuts t.word slice part
  command : Cuts text (commandSlice (bytes text) (bytes rest)) (takeCommand rest).1
  line : Fits text ((bytes text).length - (dropLine (bytes rest)).length)
  block : ∀ openBlocks, Fits text ((bytes text).length - (dropBlock .code openBlocks (bytes rest)).length)

open Reading in
theorem Text.readsFit {text rest : List Char} (h : rest <:+ text) :
    ReadsFit text rest (positionOf text rest) where
  fits := fits_positionOf h
  left := by
    obtain ⟨before, rfl⟩ := h
    rw [positionOf_append, bytes_append, ← length_bytes before, List.drop_left' rfl]
  word := by
    intro token htoken
    rw [nextToken_bytes, Option.map_eq_some_iff] at htoken
    obtain ⟨t, ht, rfl⟩ := htoken
    obtain ⟨hrest, hstart⟩ := nextToken_suffix ht
    refine ⟨fits_left (hstart.trans h), fits_left ((hrest.trans hstart).trans h), t, ht, token_cuts h ht, ?_⟩
    exact fun slice hslice => expand_cuts (List.nil_append _).symm hslice
  command := command_cuts h
  line := by
    rw [dropLine_bytes]
    exact fits_left ((dropLine_onLine rest).suffix.trans h)
  block := by
    intro openBlocks
    rw [dropBlock_bytes]
    exact fits_left ((dropBlock_suffix .code openBlocks rest).trans h)

end EntityScript
