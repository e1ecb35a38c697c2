import ModernLevelDB.Base.Coding
import ModernLevelDB.Platform.FileSystem
import Mathlib.Data.List.TakeWhile

/-! # File names and CURRENT (`metadata/filenames.h`)

A file number is spelled in decimal, padded with zeros to six digits. A name is parsed by its
`MANIFEST-` beginning or by its ending, and only the canonical spelling of a number is accepted. -/
namespace ModernLevelDB
set_option autoImplicit false

/-! ## Numbers -/

def digitByte (digit : Nat) : UInt8 := byteOf (48 + digit)

/-- The decimal digits of a number, the last digit first; `fuel` bounds how many follow. -/
def digitsReversed : (fuel : Nat) → Nat → Bytes
  | 0, number => [digitByte (number % 10)]
  | fuel + 1, number =>
      if number < 10 then [digitByte number]
      else digitByte (number % 10) :: digitsReversed fuel (number / 10)

/-- `std::to_chars` of a 64-bit number, which has at most twenty digits. -/
def toChars (number : Nat) : Bytes := (digitsReversed 19 number).reverse

def minimumDigits : Nat := 6
def maximumDigits : Nat := 20

def numberText (number : Nat) : Bytes :=
  List.replicate (minimumDigits - (toChars number).length) (digitByte 0) ++ toChars number

def isDigit (b : UInt8) : Bool := 48 ≤ b.toNat && b.toNat ≤ 57

/-- `std::from_chars` into 64 bits: the digits at the front, if there are any and they fit. -/
def fromChars (text : Bytes) : Option Nat :=
  let digits := text.takeWhile isDigit
  let number := digits.foldl (fun number b => number * 10 + (b.toNat - 48)) 0
  if digits = [] ∨ 2 ^ 64 ≤ number then none else some number

def parseCanonicalNumber (digits : Bytes) : Option Nat :=
  (fromChars digits).filter (fun number => number ≠ 0 ∧ numberText number = digits)

/-! ## Names -/

def descriptorPrefix : Bytes := ascii "MANIFEST-"
def logSuffix : Bytes := ascii ".log"
def tableSuffix : Bytes := ascii ".ldb"
def tempSuffix : Bytes := ascii ".dbtmp"

def FileName.text : FileName → Bytes
  | .log number => numberText number ++ logSuffix
  | .table number => numberText number ++ tableSuffix
  | .descriptor number => descriptorPrefix ++ numberText number
  | .temp number => numberText number ++ tempSuffix
  | .current => ascii "CURRENT"
  | .lock => ascii "LOCK"

def parseSuffix (name : Nat → FileName) (suffix text : Bytes) : Option (Option FileName) :=
  if suffix.isSuffixOf text then
    some ((parseCanonicalNumber (text.take (text.length - suffix.length))).map name)
  else none

def parseFileName (text : Bytes) : Option FileName :=
  if text = ascii "CURRENT" then some .current
  else if text = ascii "LOCK" then some .lock
  else if descriptorPrefix.isPrefixOf text then
    (parseCanonicalNumber (text.drop descriptorPrefix.length)).map .descriptor
  else
    ((parseSuffix .log logSuffix text).orElse fun _ =>
      (parseSuffix .table tableSuffix text).orElse fun _ => parseSuffix .temp tempSuffix text).join

/-- The leaf of a native path, as code units of any width. -/
def parseNativeFileName (native : List Nat) : Option FileName :=
  if descriptorPrefix.length + maximumDigits < native.length then none
  else if native.any (fun value => decide (127 < value)) then none
  else parseFileName (native.map byteOf)

/-- A file number is a 64-bit number other than zero. -/
def FileName.Numbered : FileName → Prop
  | .log number | .table number | .descriptor number | .temp number => number ≠ 0 ∧ number < 2 ^ 64
  | .current | .lock => True

/-! ## The contents of CURRENT -/

def newline : UInt8 := 10

def currentFileContents (number : Nat) : Bytes := (FileName.descriptor number).text ++ [newline]

def parseCurrentFileContents (contents : Bytes) : Result Nat :=
  if contents.getLast? ≠ some newline then
    .error (Error.corruption "CURRENT file does not end with a newline")
  else match parseFileName contents.dropLast with
    | some (.descriptor number) => .ok number
    | _ => .error (Error.corruption "CURRENT file does not name a MANIFEST file")

/-! ## Parsing what was written -/

/-- `std::from_chars` without its checks. -/
def digitsValue (digits : Bytes) : Nat :=
  digits.foldl (fun number b => number * 10 + (b.toNat - 48)) 0

theorem toNat_digitByte {digit : Nat} (h : digit < 10) : (digitByte digit).toNat = 48 + digit := by
  rw [digitByte, toNat_byteOf]
  omega

theorem isDigit_digitByte {digit : Nat} (h : digit < 10) : isDigit (digitByte digit) = true := by
  simp only [isDigit, toNat_digitByte h, Bool.and_eq_true, decide_eq_true_eq]
  omega

theorem digitsReversed_spec (fuel : Nat) : ∀ number, number < 10 ^ (fuel + 1) →
    (∀ b ∈ digitsReversed fuel number, isDigit b = true) ∧ digitsReversed fuel number ≠ [] ∧
      digitsValue (digitsReversed fuel number).reverse = number := by
  induction fuel with
  | zero =>
    intro number h
    have hmod : number % 10 < 10 := Nat.mod_lt _ (by decide)
    refine ⟨?_, by simp [digitsReversed], ?_⟩
    · intro b hb
      rw [digitsReversed, List.mem_singleton] at hb
      rw [hb]
      exact isDigit_digitByte hmod
    · simp only [digitsReversed, List.reverse_singleton, digitsValue, List.foldl_cons, List.foldl_nil,
        toNat_digitByte hmod]
      omega
  | succ fuel ih =>
    intro number h
    rw [digitsReversed]
    split
    · next hsmall =>
      refine ⟨?_, by simp, ?_⟩
      · intro b hb
        rw [List.mem_singleton.mp hb]
        exact isDigit_digitByte hsmall
      · simp only [List.reverse_singleton, digitsValue, List.foldl_cons, List.foldl_nil,
          toNat_digitByte hsmall]
        omega
    · have hmod : number % 10 < 10 := Nat.mod_lt _ (by decide)
      obtain ⟨hdigits, _, hvalue⟩ := ih (number / 10) (by rw [pow_succ] at h; omega)
      refine ⟨?_, by simp, ?_⟩
      · intro b hb
        rcases List.mem_cons.mp hb with rfl | hb
        · exact isDigit_digitByte hmod
        · exact hdigits b hb
      · unfold digitsValue at hvalue ⊢
        rw [List.reverse_cons, List.foldl_append, hvalue]
        simp only [List.foldl_cons, List.foldl_nil, toNat_digitByte hmod]
        omega

theorem digitsValue_replicate (count : Nat) (digits : Bytes) :
    digitsValue (List.replicate count (digitByte 0) ++ digits) = digitsValue digits := by
  induction count with
  | zero => rfl
  | succ count ih =>
    rw [List.replicate_succ, List.cons_append]
    exact ih

theorem length_digitsReversed (fuel number : Nat) :
    (digitsReversed fuel number).length ≤ fuel + 1 := by
  induction fuel generalizing number with
  | zero => simp [digitsReversed]
  | succ fuel ih =>
    rw [digitsReversed]
    split
    · simp
    · have := ih (number / 10)
      simp only [List.length_cons]
      omega

theorem length_numberText (number : Nat) : (numberText number).length ≤ maximumDigits := by
  have := length_digitsReversed 19 number
  simp only [numberText, toChars, minimumDigits, maximumDigits, List.length_append,
    List.length_replicate, List.length_reverse]
  omega

section
variable {number : Nat} (h : number < 2 ^ 64)
include h

theorem isDigit_of_mem_numberText {b : UInt8} (hb : b ∈ numberText number) : isDigit b = true := by
  rcases List.mem_append.mp hb with hb | hb
  · rw [List.eq_of_mem_replicate hb]
    exact isDigit_digitByte (by decide)
  · exact (digitsReversed_spec 19 number (by omega)).1 b (List.mem_reverse.mp hb)

theorem numberText_ne_nil : numberText number ≠ [] := by
  intro he
  apply (digitsReversed_spec 19 number (by omega)).2.1
  exact List.reverse_eq_nil_iff.mp (List.append_eq_nil_iff.mp he).2

theorem parseCanonicalNumber_numberText (h0 : number ≠ 0) :
    parseCanonicalNumber (numberText number) = some number := by
  have htake : (numberText number).takeWhile isDigit = numberText number :=
    List.takeWhile_eq_self_iff.mpr fun b hb => isDigit_of_mem_numberText h hb
  have hnumber : digitsValue (numberText number) = number := by
    unfold numberText
    rw [digitsValue_replicate]
    exact (digitsReversed_spec 19 number (by omega)).2.2
  have hfrom : fromChars (numberText number) = some number := by
    unfold fromChars
    rw [htake]
    unfold digitsValue at hnumber
    simp only [hnumber]
    rw [if_neg (by rintro (he | he); exacts [numberText_ne_nil h he, absurd h (by omega)])]
  unfold parseCanonicalNumber
  rw [hfrom]
  simp [h0]

theorem parseFileName_descriptor (h0 : number ≠ 0) :
    parseFileName (FileName.descriptor number).text = some (.descriptor number) := by
  have hprefix : descriptorPrefix.isPrefixOf (descriptorPrefix ++ numberText number) = true :=
    List.isPrefixOf_iff_prefix.mpr (List.prefix_append _ _)
  have hlen : 9 ≤ (descriptorPrefix ++ numberText number).length := by
    rw [List.length_append]
    have : descriptorPrefix.length = 9 := by decide
    omega
  rw [FileName.text, parseFileName, if_neg, if_neg, if_pos hprefix, List.drop_left' rfl,
    parseCanonicalNumber_numberText h h0]
  · rfl
  · intro he
    rw [he] at hlen
    revert hlen
    decide
  · intro he
    rw [he] at hlen
    revert hlen
    decide

/-- CURRENT is read back. -/
theorem parseCurrentFileContents_currentFileContents (h0 : number ≠ 0) :
    parseCurrentFileContents (currentFileContents number) = .ok number := by
  unfold parseCurrentFileContents currentFileContents
  rw [if_neg (by simp), List.dropLast_concat, parseFileName_descriptor h h0]

/-- A name that begins with a digit is parsed by its ending. -/
theorem parseFileName_digits (suffix : Bytes) :
    parseFileName (numberText number ++ suffix) =
      ((parseSuffix .log logSuffix (numberText number ++ suffix)).orElse fun _ =>
        (parseSuffix .table tableSuffix (numberText number ++ suffix)).orElse fun _ =>
          parseSuffix .temp tempSuffix (numberText number ++ suffix)).join := by
  have hfixed : ∀ fixed : Bytes, fixed.head?.any (fun b => !isDigit b) = true →
      ¬ fixed <+: numberText number ++ suffix := by
    intro fixed hhead hbegins
    obtain ⟨b, rest, htext⟩ := List.exists_cons_of_ne_nil (numberText_ne_nil h)
    have hb : isDigit b = true := isDigit_of_mem_numberText h (by simp [htext])
    cases fixed with
    | nil => simp at hhead
    | cons first tail =>
      rw [htext, List.cons_append, List.cons_prefix_cons] at hbegins
      simp [hbegins.1, hb] at hhead
  unfold parseFileName
  rw [if_neg, if_neg, if_neg]
  · exact fun hp => hfixed _ (by decide) (List.isPrefixOf_iff_prefix.mp hp)
  · exact fun he => hfixed (ascii "LOCK") (by decide) (he ▸ List.prefix_rfl)
  · exact fun he => hfixed (ascii "CURRENT") (by decide) (he ▸ List.prefix_rfl)

theorem parseSuffix_own (h0 : number ≠ 0) (name : Nat → FileName) (suffix : Bytes) :
    parseSuffix name suffix (numberText number ++ suffix) = some (some (name number)) := by
  unfold parseSuffix
  rw [if_pos (List.isSuffixOf_iff_suffix.mpr (List.suffix_append _ _)), List.length_append,
    Nat.add_sub_cancel, List.take_left, parseCanonicalNumber_numberText h h0]
  rfl

end

theorem parseSuffix_other {suffix own : Bytes} (hlen : suffix.length ≤ own.length)
    (hother : suffix.isSuffixOf own = false) (name : Nat → FileName) (front : Bytes) :
    parseSuffix name suffix (front ++ own) = none := by
  unfold parseSuffix
  rw [if_neg]
  intro hsuffix
  have := List.suffix_of_suffix_length_le (List.isSuffixOf_iff_suffix.mp hsuffix)
    (List.suffix_append front own) hlen
  rw [List.isSuffixOf_iff_suffix.mpr this] at hother
  cases hother

variable {file : FileName}

/-- A generated name is parsed back to its type and number. -/
theorem parseFileName_text (h : file.Numbered) : parseFileName file.text = some file := by
  cases file with
  | log number =>
    rw [FileName.text, parseFileName_digits h.2, parseSuffix_own h.2 h.1]
    rfl
  | table number =>
    rw [FileName.text, parseFileName_digits h.2, parseSuffix_own h.2 h.1,
      parseSuffix_other (by decide) (by decide)]
    rfl
  | descriptor number => exact parseFileName_descriptor h.2 h.1
  | temp number =>
    rw [FileName.text, parseFileName_digits h.2, parseSuffix_own h.2 h.1,
      parseSuffix_other (by decide) (by decide), parseSuffix_other (by decide) (by decide)]
    rfl
  | current => decide
  | lock => decide

/-! ## Canonical names -/

theorem numberText_of_parse {digits : Bytes} {number : Nat}
    (h : parseCanonicalNumber digits = some number) :
    numberText number = digits ∧ number ≠ 0 ∧ number < 2 ^ 64 := by
  obtain ⟨hfrom, hfilter⟩ := Option.filter_eq_some_iff.mp h
  simp only [decide_eq_true_eq] at hfilter
  refine ⟨hfilter.2, hfilter.1, ?_⟩
  unfold fromChars at hfrom
  simp only [Option.ite_none_left_eq_some, not_or, not_le, Option.some.injEq] at hfrom
  exact hfrom.2 ▸ hfrom.1.2

theorem parseSuffix_eq {name : Nat → FileName} {suffix text : Bytes}
    (h : parseSuffix name suffix text = some (some file)) :
    ∃ number, file = name number ∧ text = numberText number ++ suffix ∧
      number ≠ 0 ∧ number < 2 ^ 64 := by
  rw [parseSuffix] at h
  split at h
  · next hsuffix =>
    obtain ⟨front, rfl⟩ := List.isSuffixOf_iff_suffix.mp hsuffix
    obtain ⟨number, hnumber, rfl⟩ := Option.map_eq_some_iff.mp (Option.some.inj h)
    rw [List.length_append, Nat.add_sub_cancel, List.take_left] at hnumber
    obtain ⟨htext, hbounds⟩ := numberText_of_parse hnumber
    exact ⟨number, rfl, by rw [htext], hbounds⟩
  · cases h

/-- A file name has one spelling. -/
theorem text_of_parseFileName {text : Bytes} (h : parseFileName text = some file) :
    file.text = text ∧ file.Numbered := by
  rw [parseFileName] at h
  split at h
  · next hcurrent =>
    obtain rfl := Option.some.inj h
    exact ⟨hcurrent.symm, trivial⟩
  · split at h
    · next hlock =>
      obtain rfl := Option.some.inj h
      exact ⟨hlock.symm, trivial⟩
    · split at h
      · next hdescriptor =>
        obtain ⟨rest, rfl⟩ := List.isPrefixOf_iff_prefix.mp hdescriptor
        obtain ⟨number, hnumber, rfl⟩ := Option.map_eq_some_iff.mp h
        rw [List.drop_left] at hnumber
        obtain ⟨htext, hbounds⟩ := numberText_of_parse hnumber
        exact ⟨by rw [FileName.text, htext], hbounds⟩
      · have hsuffix : parseSuffix .log logSuffix text = some (some file) ∨
            parseSuffix .table tableSuffix text = some (some file) ∨
              parseSuffix .temp tempSuffix text = some (some file) := by
          rw [Option.join_eq_some_iff] at h
          cases hlog : parseSuffix .log logSuffix text with
          | some found => exact .inl (by rwa [hlog] at h)
          | none =>
            rw [hlog] at h
            cases htable : parseSuffix .table tableSuffix text with
            | some found => exact .inr (.inl (by rwa [htable] at h))
            | none => exact .inr (.inr (by rwa [htable] at h))
        rcases hsuffix with hparse | hparse | hparse
        · obtain ⟨number, rfl, rfl, hbounds⟩ := parseSuffix_eq hparse
          exact ⟨rfl, hbounds⟩
        · obtain ⟨number, rfl, rfl, hbounds⟩ := parseSuffix_eq hparse
          exact ⟨rfl, hbounds⟩
        · obtain ⟨number, rfl, rfl, hbounds⟩ := parseSuffix_eq hparse
          exact ⟨rfl, hbounds⟩

theorem eq_of_parseCurrentFileContents {contents : Bytes} {number : Nat}
    (h : parseCurrentFileContents contents = .ok number) :
    contents = currentFileContents number ∧ number ≠ 0 ∧ number < 2 ^ 64 := by
  unfold parseCurrentFileContents at h
  split at h
  · cases h
  · next hlast =>
    obtain ⟨front, rfl⟩ := List.getLast?_eq_some_iff.mp (not_not.mp hlast)
    rw [List.dropLast_concat] at h
    split at h
    · next found hparse =>
      obtain rfl := Except.ok.inj h
      obtain ⟨htext, hbounds⟩ := text_of_parseFileName hparse
      exact ⟨by rw [currentFileContents, htext], hbounds⟩
    · cases h

/-! ## Native names -/

theorem length_text (file : FileName) :
    file.text.length ≤ descriptorPrefix.length + maximumDigits := by
  have hprefix : descriptorPrefix.length = 9 := by decide
  cases file with
  | log number | table number | descriptor number | temp number =>
    have := length_numberText number
    have : logSuffix.length = 4 := by decide
    have : tableSuffix.length = 4 := by decide
    have : tempSuffix.length = 6 := by decide
    simp only [FileName.text, List.length_append]
    omega
  | current => decide
  | lock => decide

theorem ascii_text (h : file.Numbered) {b : UInt8} (hb : b ∈ file.text) : b.toNat ≤ 127 := by
  have hdigits : ∀ {number}, number < 2 ^ 64 → b ∈ numberText number → b.toNat ≤ 127 := by
    intro number hnumber hmem
    have := isDigit_of_mem_numberText hnumber hmem
    simp only [isDigit, Bool.and_eq_true, decide_eq_true_eq] at this
    omega
  have hfixed : ∀ fixed : Bytes, fixed.all (Nat.ble ·.toNat 127) = true → b ∈ fixed →
      b.toNat ≤ 127 :=
    fun _ hall hmem => Nat.le_of_ble_eq_true (List.all_eq_true.mp hall b hmem)
  cases file with
  | log number => exact (List.mem_append.mp hb).elim (hdigits h.2) (hfixed _ rfl)
  | table number => exact (List.mem_append.mp hb).elim (hdigits h.2) (hfixed _ rfl)
  | descriptor number => exact (List.mem_append.mp hb).elim (hfixed _ rfl) (hdigits h.2)
  | temp number => exact (List.mem_append.mp hb).elim (hdigits h.2) (hfixed _ rfl)
  | current => exact hfixed _ rfl hb
  | lock => exact hfixed _ rfl hb

theorem copy_native (bytes : Bytes) : (bytes.map UInt8.toNat).map byteOf = bytes := by
  rw [List.map_map]
  exact List.map_id'' (fun _ => UInt8.ofNat_toNat) bytes

theorem parseNativeFileName_eq_some {native : List Nat} :
    parseNativeFileName native = some file ↔
      native = file.text.map UInt8.toNat ∧ file.Numbered := by
  unfold parseNativeFileName
  constructor
  · intro h
    split at h
    · cases h
    · split at h
      · cases h
      · next hascii =>
        obtain ⟨htext, hnumbered⟩ := text_of_parseFileName h
        refine ⟨?_, hnumbered⟩
        simp only [List.any_eq_true, decide_eq_true_eq, not_exists, not_and, not_lt] at hascii
        calc native = native.map id := (List.map_id native).symm
          _ = native.map (fun value => (byteOf value).toNat) := by
            refine List.map_congr_left fun value hvalue => ?_
            have := hascii value hvalue
            rw [toNat_byteOf, id]
            omega
          _ = file.text.map UInt8.toNat := by rw [htext, List.map_map]; rfl
  · rintro ⟨rfl, hnumbered⟩
    have hlength := length_text file
    have hascii : ¬ (file.text.map UInt8.toNat).any (fun value => decide (127 < value)) = true := by
      simp only [List.any_map, List.any_eq_true, Function.comp_apply, decide_eq_true_eq]
      rintro ⟨b, hb, hlt⟩
      have := ascii_text hnumbered hb
      omega
    rw [if_neg (by rw [List.length_map]; omega), if_neg hascii, copy_native]
    exact parseFileName_text hnumbered

/-- The names of files and the contents of CURRENT have one spelling each. -/
theorem fileNames_canonical :
    (∀ file : FileName, file.Numbered → parseFileName file.text = some file) ∧
      (∀ a b : FileName, a.Numbered → b.Numbered → a.text = b.text → a = b) ∧
      (∀ text file, parseFileName text = some file → file.text = text ∧ file.Numbered) ∧
      (∀ leaf : Bytes, parseNativeFileName (leaf.map UInt8.toNat) = parseFileName leaf) ∧
      (∀ native file, parseNativeFileName native = some file →
        native = file.text.map UInt8.toNat) ∧
      (∀ number, number ≠ 0 → number < 2 ^ 64 →
        parseCurrentFileContents (currentFileContents number) = .ok number) ∧
      (∀ contents number, parseCurrentFileContents contents = .ok number →
        contents = currentFileContents number ∧ number ≠ 0 ∧ number < 2 ^ 64) := by
  refine ⟨fun file h => parseFileName_text h, ?_, fun text file h => text_of_parseFileName h, ?_,
    fun native file h => (parseNativeFileName_eq_some.mp h).1,
    fun number h0 h => parseCurrentFileContents_currentFileContents h h0,
    fun contents number h => eq_of_parseCurrentFileContents h⟩
  · intro a b ha hb htext
    have hparse := parseFileName_text ha
    rw [htext, parseFileName_text hb] at hparse
    exact (Option.some.inj hparse).symm
  · intro leaf
    refine Option.ext fun file => ?_
    rw [parseNativeFileName_eq_some]
    constructor
    · rintro ⟨hnative, hnumbered⟩
      rw [← copy_native leaf, hnative, copy_native]
      exact parseFileName_text hnumbered
    · intro h
      obtain ⟨htext, hnumbered⟩ := text_of_parseFileName h
      exact ⟨by rw [htext], hnumbered⟩

theorem fileNames_canonical_largest :
    (FileName.temp (2 ^ 64 - 1)).text = ascii "18446744073709551615.dbtmp" ∧
      parseFileName (FileName.temp (2 ^ 64 - 1)).text = some (.temp (2 ^ 64 - 1)) :=
  ⟨by decide, fileNames_canonical.1 _ ⟨by decide, by decide⟩⟩

end ModernLevelDB
