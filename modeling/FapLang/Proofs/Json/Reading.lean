import FapLang.Json.Read
import FapLang.Json.Write
import FapLang.Proofs.CastOutcomes
import FapLang.Proofs.Number.Spelling

/-!
Documents read back as they were written, but for floating-point numbers, which come back as what their texts
spell (`parse_render`).
-/

namespace FapLang.Json

open Number

/-! ### Texts -/

section Texts

variable {rest : List Char}

theorem hexValue?_hexDigit {n : Nat} (h : n < 16) : hexValue? (Text.hexDigit n) = some n := by
  have hall : ∀ d : Fin 16, hexValue? (Text.hexDigit d) = some d.val := by decide
  exact hall ⟨n, h⟩

theorem readUnit?_hexDigits {unit : Nat} (h : unit < 65536) (hrest : rest ≠ []) :
    readUnit? (Text.hexDigits 4 unit ++ rest) = some (unit, rest) := by
  obtain ⟨c, rest, rfl⟩ := List.exists_cons_of_ne_nil hrest
  have hvalue := fun n ↦ hexValue?_hexDigit (Nat.mod_lt n (by decide : 0 < 16))
  have hunit : (unit / 16 / 16 / 16 % 16 * 16 + unit / 16 / 16 % 16) * 256 + unit / 16 % 16 * 16 +
      unit % 16 = unit := by
    omega
  simp [Text.hexDigits, readUnit?, hvalue, hunit]

theorem readEscapedUnit_single {c : Char} (h : c.toNat < 65536) (hrest : rest ≠ []) :
    readEscapedUnit (Text.hexDigits 4 c.toNat ++ rest) = .ok (c, rest) := by
  have hvalid : c.toNat < 0xD800 ∨ 0xDFFF < c.toNat ∧ c.toNat < 0x110000 := c.valid
  have hhigh : isHighUnit c.toNat = false := by
    simp only [isHighUnit, Bool.and_eq_false_iff, decide_eq_false_iff_not]
    omega
  have hlow : isLowUnit c.toNat = false := by
    simp only [isLowUnit, Bool.and_eq_false_iff, decide_eq_false_iff_not]
    omega
  simp [readEscapedUnit, readUnit?_hexDigits h hrest, unitChar, hhigh, hlow]

theorem readEscapedUnit_pair {high low : Nat} (hhigh : isHighUnit high = true) (hlow : isLowUnit low = true)
    (hrest : rest ≠ []) : readEscapedUnit (Text.hexDigits 4 high ++ (unitEscape low ++ rest)) =
      .ok (Char.ofNat (65536 + (high - 0xD800) * 1024 + (low - 0xDC00)), rest) := by
  have hbounds : high < 65536 ∧ low < 65536 := by
    simp only [isHighUnit, isLowUnit, Bool.and_eq_true, decide_eq_true_eq] at hhigh hlow
    omega
  have hlong : ¬ (Text.hexDigits 4 low ++ rest).length ≤ 4 := by
    have hpos := List.length_pos_iff.mpr hrest
    simp only [List.length_append, Text.hexDigits, List.length_cons, List.length_nil]
    omega
  rw [readEscapedUnit, unitEscape, List.cons_append, List.cons_append,
    readUnit?_hexDigits hbounds.1 (List.cons_ne_nil _ _)]
  simp only [hhigh, if_neg hlong, readUnit?_hexDigits hbounds.2 hrest, hlow, if_true]

/-- A written character is read in one step. -/
theorem readText_writeChar (opened steps : Nat) (c : Char) (hrest : rest ≠ []) :
    readText opened (steps + 1) (writeChar c ++ rest) =
      (fun found ↦ (c :: found.1, found.2)) <$> readText opened steps rest := by
  have hvalid : c.toNat < 0xD800 ∨ 0xDFFF < c.toNat ∧ c.toNat < 0x110000 := c.valid
  unfold writeChar
  cases hshort : shortEscapes.lookup c with
  | some letter =>
    have hletters : ∀ e ∈ shortEscapes, e.2 ≠ 'u' ∧ escaped? e.2 = some e.1 := by decide
    obtain ⟨hu, hescaped⟩ := hletters _ (Grammar.mem_of_lookup_eq_some hshort)
    simp [readText, hescaped]
  | none =>
    have hquote : c ≠ '"' ∧ c ≠ '\\' := by
      constructor <;> rintro rfl <;> cases hshort
    dsimp only
    split_ifs with hplain hsingle
    · rw [Bool.and_eq_true, decide_eq_true_eq] at hplain
      simp [readText, hquote, Nat.not_lt.mpr hplain.1]
    · simp [readText, unitEscape, readEscapedUnit_single hsingle hrest]
    · have hhigh : isHighUnit (0xD800 + (c.toNat - 65536) / 1024) = true := by
        simp only [isHighUnit, Bool.and_eq_true, decide_eq_true_eq]
        omega
      have hlow : isLowUnit (0xDC00 + (c.toNat - 65536) % 1024) = true := by
        simp only [isLowUnit, Bool.and_eq_true, decide_eq_true_eq]
        omega
      have hread := readEscapedUnit_pair hhigh hlow hrest
      have hjoin : 65536 + (0xD800 + (c.toNat - 65536) / 1024 - 0xD800) * 1024 +
          (0xDC00 + (c.toNat - 65536) % 1024 - 0xDC00) = c.toNat := by
        omega
      rw [hjoin, Char.ofNat_toNat] at hread
      rw [List.append_assoc, unitEscape, List.cons_append, List.cons_append, readText, if_neg (by decide), if_pos rfl]
      simp only [hread, bind_pure_comp]

theorem writeChar_ne_nil (c : Char) : writeChar c ≠ [] := by
  unfold writeChar unitEscape
  split
  · simp
  · dsimp only
    split_ifs <;> simp

/-- A written text is read up to its closing quote. -/
theorem readText_flatMap (opened : Nat) {steps : Nat} (cs : List Char) (hsteps : cs.length < steps) (rest : List Char) :
    readText opened steps (cs.flatMap writeChar ++ '"' :: rest) = .ok (cs, rest) := by
  induction cs generalizing steps with
  | nil =>
    obtain ⟨steps, rfl⟩ := Nat.exists_eq_succ_of_ne_zero (Nat.ne_zero_of_lt hsteps)
    rfl
  | cons c cs ih =>
    obtain ⟨steps, rfl⟩ := Nat.exists_eq_succ_of_ne_zero (Nat.ne_zero_of_lt hsteps)
    rw [List.flatMap_cons, List.append_assoc, readText_writeChar _ _ _ (by simp), ih (Nat.lt_of_succ_lt_succ hsteps)]
    rfl

theorem readQuoted_writeText (s : String) (rest : List Char) :
    readQuoted (s.toList.flatMap writeChar ++ '"' :: rest) = .ok (s.toList, rest) := by
  refine readText_flatMap _ _ ?_ rest
  have hlength : s.toList.length ≤ (s.toList.flatMap writeChar).length := by
    induction s.toList with
    | nil => exact Nat.le_refl 0
    | cons c cs ih =>
      have hpos := List.length_pos_iff.mpr (writeChar_ne_nil c)
      rw [List.flatMap_cons, List.length_append, List.length_cons]
      omega
  rw [List.length_append, List.length_cons]
  omega

end Texts

/-! ### Numbers -/

/-- What may come after a value in a written document. -/
inductive EndsValue : List Char → Prop
  | document : EndsValue []
  | item (rest : List Char) : EndsValue (',' :: rest)
  | list (rest : List Char) : EndsValue (']' :: rest)
  | object (rest : List Char) : EndsValue ('}' :: rest)

section Numbers

variable {fraction power rest : List Char}

theorem head_not_digit (hfraction : IsFraction fraction) (hpower : IsPower power) (hrest : EndsValue rest) :
    ∀ c ∈ (fraction ++ (power ++ rest)).head?, isAsciiDigit c = false := by
  cases hfraction with
  | point => rintro c ⟨⟩; rfl
  | none =>
    cases hpower with
    | mark => rintro c ⟨⟩; rfl
    | none => cases hrest <;> rintro c ⟨⟩ <;> rfl

theorem spanDigits_append {ds : List Char} (hds : AreDigits ds) (hrest : ∀ c ∈ rest.head?, isAsciiDigit c = false) :
    spanDigits (ds ++ rest) = (ds, rest) := by
  rw [spanDigits, List.span_eq_takeWhile_dropWhile, List.takeWhile_append_of_pos hds.all,
    List.dropWhile_append_of_pos hds.all]
  cases rest with
  | nil => simp
  | cons c rest => simp [hrest c rfl]

theorem readPower_append (hpower : IsPower power) (hrest : EndsValue rest) :
    readPower (power ++ rest) = (power, rest) := by
  cases hpower with
  | none => cases hrest <;> rfl
  | @mark sign ds hsign hds =>
    have hspan : spanDigits (ds ++ rest) = (ds, rest) := spanDigits_append hds (head_not_digit .none .none hrest)
    rcases hsign with rfl | rfl <;> simp [readPower, hspan, hds.nonempty]

theorem readPoint_append (hfraction : IsFraction fraction) (hpower : IsPower power) (hrest : EndsValue rest) :
    readPoint (fraction ++ (power ++ rest)) = (fraction, power ++ rest) := by
  cases hfraction with
  | none =>
    cases hpower with
    | none => cases hrest <;> rfl
    | mark => rfl
  | @point ds hds =>
    have hspan : spanDigits (ds ++ (power ++ rest)) = (ds, power ++ rest) :=
      spanDigits_append hds (head_not_digit .none hpower hrest)
    simp [readPoint, hspan, hds.nonempty]

theorem readWhole_append {whole : List Char} (hwhole : IsWhole whole) (hrest : ∀ c ∈ rest.head?, isAsciiDigit c = false) :
    readWhole (whole ++ rest) = (whole, rest) := by
  have hspan := spanDigits_append hwhole.toAreDigits hrest
  obtain ⟨c, cs, rfl⟩ := List.exists_cons_of_ne_nil hwhole.nonempty
  by_cases hzero : c = '0'
  · subst hzero
    rw [hwhole.proper rfl]
    rfl
  · rw [← hspan]
    simp [readWhole, hzero]

variable (w : Spelling)

/-- A number is an integer exactly if it has neither a point nor an exponent. -/
theorem readNumber_text (hrest : EndsValue rest) : readNumber (w.text ++ rest) =
    if w.isInteger then integerOf w.text (w.text ++ rest) rest
    else .ok (float ((readFloat (String.ofList w.text)).getD 0), rest) := by
  obtain ⟨negative, whole, fraction, power, hwhole, hfraction, hpower⟩ := w
  have hreadWhole := readWhole_append hwhole (head_not_digit hfraction hpower hrest)
  have hreadPoint := readPoint_append hfraction hpower hrest
  have hreadPower := readPower_append hpower hrest
  obtain ⟨c, digits, rfl⟩ := List.exists_cons_of_ne_nil hwhole.nonempty
  have hminus : c ≠ '-' := (digit_facts (hwhole.all c (.head _))).2.2.1
  by_cases hinteger : fraction = [] ∧ power = []
  · obtain ⟨rfl, rfl⟩ := hinteger
    cases negative <;> simp_all [Spelling.text, Spelling.sign, Spelling.isInteger, readNumber]
  · cases negative <;> simp_all [Spelling.text, Spelling.sign, Spelling.isInteger, readNumber, if_neg hinteger]

/-- What starts like a number is no word, and is neither a text nor a container. -/
theorem readValue_text (steps : Nat) : readValue (steps + 1) (w.text ++ rest) = readNumber (w.text ++ rest) := by
  obtain ⟨negative, whole, fraction, power, hwhole, -⟩ := w
  obtain ⟨c, digits, rfl⟩ := List.exists_cons_of_ne_nil hwhole.nonempty
  have hdigit := mem_digits_of_isAsciiDigit (hwhole.all c (.head _))
  simp only [List.mem_cons, List.not_mem_nil, or_false] at hdigit
  cases negative with
  | true => rcases hdigit with rfl | rfl | rfl | rfl | rfl | rfl | rfl | rfl | rfl | rfl <;> rfl
  | false => rcases hdigit with rfl | rfl | rfl | rfl | rfl | rfl | rfl | rfl | rfl | rfl <;> rfl

theorem integerOf_eq {digits cs : List Char} {n : Writable} (h : readInt (String.ofList digits) = .value n.val) :
    integerOf digits cs rest = .ok (int n, rest) := by
  unfold integerOf
  split
  · next m hread =>
    obtain rfl : m = n.val := IntReading.value.inj (hread.symm.trans h)
    rfl
  all_goals
    next hread =>
    rw [h] at hread
    nomatch hread

theorem readValue_int (n : Writable) (hrest : EndsValue rest) (steps : Nat) :
    readValue (steps + 1) ((intText n.val).toList ++ rest) = .ok (int n, rest) := by
  have hlength : (Nat.toDigits 10 n.val.natAbs).length ≤ digitLimit := by
    have hn := n.property
    rw [isWritable, decide_eq_true_eq] at hn
    generalize hlimit : digitLimit = limit at hn ⊢
    exact (Nat.length_toDigits_le_iff (by decide) (by rw [← hlimit]; decide)).mpr hn
  have hread : readInt (intText n.val) = .value n.val := by
    rw [Run.intText_eq_text hlength, IntLiteral.readInt_text, Run.value_numeralOf]
  rw [← Spelling.text_ofInt, readValue_text, readNumber_text _ hrest, if_pos (by rfl), integerOf_eq]
  rw [Spelling.text_ofInt, String.ofList_toList, hread]

/-- A number that is not finite is written as a word. -/
theorem writeFloat_cases (x : Float) : writeFloat x ∈ ["NaN".toList, "Infinity".toList, "-Infinity".toList] ∨
    ∃ w : Spelling, writeFloat x = w.text ∧ w.isInteger = false := by
  unfold writeFloat
  split_ifs with hnan hinfinite hnegative
  · simp
  · simp
  · simp
  · exact .inr (exists_spelling (Bool.not_eq_true _ ▸ hnan) (Bool.not_eq_true _ ▸ hinfinite))

/-- What a number is after it has been written and read. -/
def readBack (x : Float) : Float :=
  (readFloat (String.ofList (writeFloat x))).getD 0

theorem readValue_float (x : Float) (hrest : EndsValue rest) (steps : Nat) :
    readValue (steps + 1) (writeFloat x ++ rest) = .ok (float (readBack x), rest) := by
  unfold readBack
  rcases writeFloat_cases x with hword | ⟨w, htext, hpoint⟩
  · simp only [List.mem_cons, List.not_mem_nil, or_false] at hword
    rcases hword with h | h | h <;> rw [h] <;> rfl
  · rw [htext, readValue_text, readNumber_text w hrest, hpoint]
    rfl

end Numbers

/-! ### Documents -/

mutual

/-- What a document is after it has been written and read. -/
def reread : Json → Json
  | float x => float (readBack x)
  | list items => list (rereadItems items)
  | object fields => object (rereadFields [] fields)
  | j => j

def rereadItems : List Json → List Json
  | [] => []
  | item :: rest => reread item :: rereadItems rest

def rereadFields (before : Run.Table Json) : List (String × Json) → Run.Table Json
  | [] => before
  | (name, value) :: rest => rereadFields (before.insert name (reread value)) rest

end

theorem writeItems_cons (item next : Json) (items : List Json) :
    writeItems (item :: next :: items) = write item ++ ',' :: ' ' :: writeItems (next :: items) :=
  rfl

theorem writeFields_cons (name : String) (value : Json) (next : String × Json) (fields : List (String × Json)) :
    writeFields ((name, value) :: next :: fields) =
      writeText name ++ ':' :: ' ' :: (write value ++ ',' :: ' ' :: writeFields (next :: fields)) :=
  List.append_assoc ..

/-- The characters that documents are written in. -/
def isPlain (c : Char) : Bool :=
  32 ≤ c.toNat && c.toNat < 127

theorem plain_writeChar (c : Char) : ∀ d ∈ writeChar c, isPlain d = true := by
  have hdigit : ∀ d : Fin 16, isPlain (Text.hexDigit d) = true := by decide
  have hdigits : ∀ width n, ∀ d ∈ Text.hexDigits width n, isPlain d = true := by
    intro width
    induction width with
    | zero => simp [Text.hexDigits]
    | succ width ih =>
      intro n
      rw [Text.hexDigits, List.forall_mem_append]
      exact ⟨ih _, List.forall_mem_singleton.mpr (hdigit ⟨n % 16, Nat.mod_lt n (by decide)⟩)⟩
  have hunit : ∀ unit, ∀ d ∈ unitEscape unit, isPlain d = true := fun unit ↦
    List.forall_mem_cons.mpr ⟨rfl, List.forall_mem_cons.mpr ⟨rfl, hdigits 4 unit⟩⟩
  unfold writeChar
  split
  · next letter hshort =>
    have hletters : ∀ e ∈ shortEscapes, isPlain e.2 = true := by decide
    have hletter := hletters _ (Grammar.mem_of_lookup_eq_some hshort)
    exact List.forall_mem_cons.mpr ⟨rfl, List.forall_mem_singleton.mpr hletter⟩
  · dsimp only
    split_ifs with hplain
    · exact List.forall_mem_singleton.mpr hplain
    · exact hunit _
    · exact List.forall_mem_append.mpr ⟨hunit _, hunit _⟩

theorem plain_writeText (s : String) : ∀ c ∈ writeText s, isPlain c = true := by
  rw [writeText, List.forall_mem_append, List.forall_mem_cons]
  refine ⟨⟨rfl, fun d hd ↦ ?_⟩, List.forall_mem_singleton.mpr rfl⟩
  obtain ⟨c, -, hd⟩ := List.mem_flatMap.mp hd
  exact plain_writeChar c d hd

theorem plain_spelling (w : Spelling) : ∀ c ∈ w.text, isPlain c = true := by
  have hchars : ∀ c ∈ Spelling.chars, isPlain c = true := List.all_eq_true.mp (by decide)
  exact fun c hc ↦ hchars c (w.text_mem_chars c hc)

mutual

theorem plain_write : ∀ j : Json, ∀ c ∈ write j, isPlain c = true
  | null => List.all_eq_true.mp (by decide)
  | bool b => List.all_eq_true.mp (by cases b <;> decide)
  | int n => by
    rw [write, ← Spelling.text_ofInt]
    exact plain_spelling _
  | float x => by
    rw [write]
    rcases writeFloat_cases x with hword | ⟨w, htext, -⟩
    · have hwords : ∀ word ∈ ["NaN".toList, "Infinity".toList, "-Infinity".toList], word.all isPlain = true := by
        decide
      exact List.all_eq_true.mp (hwords _ hword)
    · exact htext ▸ plain_spelling w
  | text s => plain_writeText s
  | list items => by
    rw [write, List.forall_mem_append, List.forall_mem_cons]
    exact ⟨⟨rfl, plain_writeItems items⟩, List.forall_mem_singleton.mpr rfl⟩
  | object fields => by
    rw [write, List.forall_mem_append, List.forall_mem_cons]
    exact ⟨⟨rfl, plain_writeFields fields⟩, List.forall_mem_singleton.mpr rfl⟩

theorem plain_writeItems : ∀ items : List Json, ∀ c ∈ writeItems items, isPlain c = true
  | [] => by simp [writeItems]
  | [item] => plain_write item
  | item :: next :: items => by
    rw [writeItems_cons, List.forall_mem_append, List.forall_mem_cons, List.forall_mem_cons]
    exact ⟨plain_write item, rfl, rfl, plain_writeItems (next :: items)⟩

theorem plain_writeFields : ∀ fields : List (String × Json), ∀ c ∈ writeFields fields, isPlain c = true
  | [] => by simp [writeFields]
  | [(name, value)] => by
    rw [writeFields, List.forall_mem_append, List.forall_mem_cons, List.forall_mem_cons]
    exact ⟨plain_writeText name, rfl, rfl, plain_write value⟩
  | (name, value) :: next :: fields => by
    rw [writeFields_cons, List.forall_mem_append, List.forall_mem_cons, List.forall_mem_cons, List.forall_mem_append,
      List.forall_mem_cons, List.forall_mem_cons]
    exact ⟨plain_writeText name, rfl, rfl, plain_write value, rfl, rfl, plain_writeFields (next :: fields)⟩

end

/-- A written value starts with a character that is neither white space nor closes a list. -/
theorem exists_head_write (j : Json) : ∃ c cs, write j = c :: cs ∧ isSpace c = false ∧ c ≠ ']' := by
  have hnumber : ∀ w : Spelling, ∃ c cs, w.text = c :: cs ∧ isSpace c = false ∧ c ≠ ']' := by
    intro w
    have hchars : ∀ c ∈ Spelling.chars, (!isSpace c && c != ']') = true := List.all_eq_true.mp (by decide)
    cases htext : w.text with
    | nil => simp [Spelling.text, w.isWhole.nonempty] at htext
    | cons c cs => exact ⟨c, cs, rfl, by simpa using hchars c (w.text_mem_chars c (htext ▸ .head _))⟩
  cases j with
  | null => exact ⟨_, _, rfl, by decide⟩
  | bool b => cases b <;> exact ⟨_, _, rfl, by decide⟩
  | int n =>
    rw [write, ← Spelling.text_ofInt]
    exact hnumber _
  | float x =>
    rw [write]
    rcases writeFloat_cases x with hword | ⟨w, htext, -⟩
    · simp only [List.mem_cons, List.not_mem_nil, or_false] at hword
      rcases hword with h | h | h <;> exact ⟨_, _, h, by decide⟩
    · exact htext ▸ hnumber w
  | text s => exact ⟨_, _, rfl, by decide⟩
  | list items => exact ⟨_, _, rfl, by decide⟩
  | object fields => exact ⟨_, _, rfl, by decide⟩

theorem skipSpaces_cons {c : Char} (h : isSpace c = false) (cs : List Char) : skipSpaces (c :: cs) = c :: cs := by
  rw [skipSpaces, List.dropWhile_cons_of_neg (by simp [h])]

theorem skipSpaces_write (j : Json) (rest : List Char) : skipSpaces (' ' :: (write j ++ rest)) = write j ++ rest := by
  obtain ⟨c, cs, hwrite, hspace, _⟩ := exists_head_write j
  rw [hwrite]
  exact skipSpaces_cons hspace _

theorem exists_writeItems (item : Json) (items : List Json) :
    ∃ more, writeItems (item :: items) = write item ++ more := by
  cases items with
  | nil => exact ⟨[], (List.append_nil _).symm⟩
  | cons next items => exact ⟨_, rfl⟩

/-- So many steps are enough for the values that are not longer. -/
def ReadsValues (steps : Nat) : Prop :=
  ∀ (j : Json) (rest : List Char), EndsValue rest → (write j).length ≤ steps →
    readValue steps (write j ++ rest) = .ok (reread j, rest)

def ReadsItems (steps : Nat) : Prop :=
  ∀ (items : List Json) (rest : List Char), items ≠ [] → (writeItems items).length < steps →
    readItems steps (writeItems items ++ ']' :: rest) = .ok (rereadItems items, rest)

def ReadsFields (steps : Nat) : Prop :=
  ∀ (before : Run.Table Json) (fields : List (String × Json)) (rest : List Char), fields ≠ [] →
    (writeFields fields).length < steps →
    readFields steps before (writeFields fields ++ '}' :: rest) = .ok (rereadFields before fields, rest)

section Steps

variable {steps : Nat}

theorem readsItems_succ (hvalues : ReadsValues steps) (hitems : ReadsItems steps) : ReadsItems (steps + 1) := by
  intro items rest hne hlength
  obtain ⟨item, items, rfl⟩ := List.exists_cons_of_ne_nil hne
  cases items with
  | nil =>
    have hvalue := hvalues item (']' :: rest) (.list rest) (Nat.le_of_lt_succ hlength)
    simp only [writeItems, readItems, hvalue]
    rfl
  | cons next items =>
    simp only [writeItems, List.length_append, List.length_cons] at hlength
    have hvalue := hvalues item (',' :: ' ' :: (writeItems (next :: items) ++ ']' :: rest)) (.item _) (by omega)
    have hrest := hitems (next :: items) rest (List.cons_ne_nil _ _) (by omega)
    have hspaces : skipSpaces (' ' :: (writeItems (next :: items) ++ ']' :: rest)) =
        writeItems (next :: items) ++ ']' :: rest := by
      obtain ⟨more, hmore⟩ := exists_writeItems next items
      rw [hmore, List.append_assoc, skipSpaces_write]
    rw [writeItems_cons, List.append_assoc, List.cons_append, List.cons_append, readItems, hvalue]
    simp only [bind, Except.bind, skipSpaces_cons (rfl : isSpace ',' = false), hspaces, hrest]
    rfl

theorem readsFields_succ (hvalues : ReadsValues steps) (hfields : ReadsFields steps) : ReadsFields (steps + 1) := by
  intro before fields rest hne hlength
  obtain ⟨⟨name, value⟩, fields, rfl⟩ := List.exists_cons_of_ne_nil hne
  cases fields with
  | nil =>
    simp only [writeFields, writeText, List.length_append, List.length_cons] at hlength
    have hvalue := hvalues value ('}' :: rest) (.object rest) (by omega)
    simp only [writeFields, writeText, List.append_assoc, List.cons_append, List.nil_append, readFields,
      readQuoted_writeText, bind, Except.bind, skipSpaces_cons (rfl : isSpace ':' = false), skipSpaces_write, hvalue,
      skipSpaces_cons (rfl : isSpace '}' = false), String.ofList_toList]
    rfl
  | cons next fields =>
    rw [writeFields_cons] at hlength ⊢
    simp only [writeText, List.length_append, List.length_cons] at hlength
    have hvalue := hvalues value (',' :: ' ' :: (writeFields (next :: fields) ++ '}' :: rest)) (.item _) (by omega)
    have hrest := hfields (before.insert name (reread value)) (next :: fields) rest (List.cons_ne_nil _ _) (by omega)
    have hspaces : skipSpaces (' ' :: (writeFields (next :: fields) ++ '}' :: rest)) =
        writeFields (next :: fields) ++ '}' :: rest := by
      obtain ⟨nextName, nextValue⟩ := next
      cases fields <;> rfl
    simp only [writeText, List.append_assoc, List.cons_append, List.nil_append, readFields, readQuoted_writeText, bind,
      Except.bind, skipSpaces_cons (rfl : isSpace ':' = false), skipSpaces_write, hvalue,
      skipSpaces_cons (rfl : isSpace ',' = false), hspaces, String.ofList_toList, hrest]
    rfl

theorem readsValues_succ (hitems : ReadsItems steps) (hfields : ReadsFields steps) : ReadsValues (steps + 1) := by
  intro j rest hrest hlength
  cases j with
  | null => rfl
  | bool b => cases b <;> rfl
  | int n => exact readValue_int n hrest steps
  | float x => exact readValue_float x hrest steps
  | text s =>
    simp only [write, writeText, List.append_assoc, List.cons_append, List.nil_append, readValue, readQuoted_writeText,
      bind, Except.bind, String.ofList_toList, reread]
    rfl
  | list items =>
    simp only [write, List.cons_append, List.append_assoc, List.nil_append, List.length_cons, List.length_append]
      at hlength ⊢
    cases items with
    | nil => rfl
    | cons item items =>
      have hread := hitems (item :: items) rest (List.cons_ne_nil _ _) (by omega)
      obtain ⟨more, hmore⟩ := exists_writeItems item items
      obtain ⟨c, cs, hwrite, hspace, hclose⟩ := exists_head_write item
      rw [hmore, hwrite, List.append_assoc, List.cons_append] at hread ⊢
      simp [readValue, skipSpaces_cons hspace, hclose, hread, reread]
  | object fields =>
    simp only [write, List.cons_append, List.append_assoc, List.nil_append, List.length_cons, List.length_append]
      at hlength ⊢
    cases fields with
    | nil => rfl
    | cons field fields =>
      have hread := hfields [] (field :: fields) rest (List.cons_ne_nil _ _) (by omega)
      obtain ⟨more, hmore⟩ : ∃ more, writeFields (field :: fields) = '"' :: more := by
        obtain ⟨name, value⟩ := field
        cases fields <;> exact ⟨_, rfl⟩
      rw [hmore, List.cons_append] at hread ⊢
      simp [readValue, skipSpaces_cons (rfl : isSpace '"' = false), hread, reread]

/-- Enough steps for all values, by induction on their number. -/
theorem reads (steps : Nat) : ReadsValues steps ∧ ReadsItems steps ∧ ReadsFields steps := by
  induction steps with
  | zero =>
    refine ⟨fun j rest _ hlength ↦ ?_, fun _ _ _ hlength ↦ absurd hlength (Nat.not_lt_zero _),
      fun _ _ _ _ hlength ↦ absurd hlength (Nat.not_lt_zero _)⟩
    obtain ⟨c, cs, hwrite, _⟩ := exists_head_write j
    rw [hwrite] at hlength
    cases hlength
  | succ steps ih =>
    obtain ⟨hvalues, hitems, hfields⟩ := ih
    exact ⟨readsValues_succ hitems hfields, readsItems_succ hvalues hitems, readsFields_succ hvalues hfields⟩

end Steps

/-- A written document is read. -/
theorem parse_render (j : Json) : parse j.render = .ok j.reread := by
  obtain ⟨c, cs, hwrite, hspace, _⟩ := exists_head_write j
  have hread := (reads (2 * (write j).length + 1)).1 j [] .document (by omega)
  have hmark : (write j).head? ≠ some (Char.ofNat 0xFEFF) := by
    intro hhead
    exact absurd (plain_write j _ (List.mem_of_mem_head? hhead)) (by decide)
  have hskip : skipSpaces (write j) = write j := by
    rw [hwrite]
    exact skipSpaces_cons hspace cs
  rw [List.append_nil] at hread
  rw [parse, render, String.toList_ofList, readDocument, if_neg hmark, hskip, hread]
  rfl

end FapLang.Json
