import Mathlib.Data.List.TakeWhile
import McfKv.Util.Decimal

/-!
# File names (`db/filename.cc`, `ConsumeDecimalNumber` in `util/logging.cc`)

The files of a database are told apart by their names: `CURRENT`, `LOCK`, `LOG`, `LOG.old`,
`MANIFEST-` followed by a number, and a number followed by `.log`, `.sst`, `.ldb` or `.dbtmp`.
`Owned` is the list of these names, and `parseFileName_eq_some_iff` says that `ParseFileName` accepts
no others. `ConsumeDecimalNumber` looks at one digit at a time and stops before the value leaves the
64-bit range; `consumeDecimalNumber_eq` says what this comes to for the whole text. It counts the
digits with an `int`, here the test is whether there is a digit at all.
-/

namespace McfKv

open Coding

/-- The bytes of an ASCII text. -/
def ascii (s : String) : Slice := s.toList.map fun c => UInt8.ofNat c.toNat

/-- `enum FileType`. -/
inductive FileType where
  | log
  | dbLock
  | table
  | descriptor
  | current
  | temp
  | infoLog
deriving DecidableEq, Repr

namespace Filename

/-- `kMaxUint64`. -/
def maxUInt64 : ℕ := 2 ^ 64 - 1

/-- The loop of `ConsumeDecimalNumber`: the value and what follows the digits, `none` on
overflow. -/
def consumeDigits : ℕ → Slice → Option (ℕ × Slice)
  | v, [] => some (v, [])
  | v, c :: rest =>
    if 48 ≤ c.toNat ∧ c.toNat ≤ 57 then
      let delta := c.toNat - 48
      if v > maxUInt64 / 10 ∨ (v = maxUInt64 / 10 ∧ delta > maxUInt64 % 10) then none
      else consumeDigits (v * 10 + delta) rest
    else some (v, c :: rest)

/-- `ConsumeDecimalNumber`: there must be a digit. -/
def consumeDecimalNumber (rest : Slice) : Option (ℕ × Slice) :=
  (consumeDigits 0 rest).filter fun consumed => consumed.2.length < rest.length

/-- The type of a file by what follows its number. -/
def typeOfSuffix (suffix : Slice) : Option FileType :=
  if suffix = ascii ".log" then some .log
  else if suffix = ascii ".sst" ∨ suffix = ascii ".ldb" then some .table
  else if suffix = ascii ".dbtmp" then some .temp
  else none

/-- `ParseFileName`. -/
def parseFileName (fname : Slice) : Option (ℕ × FileType) :=
  if fname = ascii "CURRENT" then some (0, .current)
  else if fname = ascii "LOCK" then some (0, .dbLock)
  else if fname = ascii "LOG" ∨ fname = ascii "LOG.old" then some (0, .infoLog)
  else if (ascii "MANIFEST-").isPrefixOf fname then
    (consumeDecimalNumber (fname.drop 9)).bind fun (num, rest) =>
      if rest = [] then some (num, .descriptor) else none
  else
    (consumeDecimalNumber fname).bind fun (num, suffix) =>
      (typeOfSuffix suffix).map fun type => (num, type)

/-- A number in the format `%06llu`. -/
def padded (number : ℕ) : Slice := formatted 6 number

/-- `MakeFileName`. -/
def makeFileName (name : Slice) (number : ℕ) (suffix : Slice) : Slice :=
  name ++ (ascii "/" ++ (padded number ++ (ascii "." ++ suffix)))

/-- `TableFileName`. -/
def tableFileName (name : Slice) (number : ℕ) : Slice := makeFileName name number (ascii "ldb")

/-- `LogFileName`. -/
def logFileName (name : Slice) (number : ℕ) : Slice := makeFileName name number (ascii "log")

/-- `SSTTableFileName`. -/
def sstTableFileName (name : Slice) (number : ℕ) : Slice := makeFileName name number (ascii "sst")

/-- `TempFileName`. -/
def tempFileName (dbname : Slice) (number : ℕ) : Slice := makeFileName dbname number (ascii "dbtmp")

/-- `DescriptorFileName`. -/
def descriptorFileName (dbname : Slice) (number : ℕ) : Slice :=
  dbname ++ (ascii "/" ++ (ascii "MANIFEST-" ++ padded number))

/-- The base name of a path: what follows the last slash. -/
def baseName (path : Slice) : Slice := (path.reverse.takeWhile fun c => c ≠ 47).reverse

/-! ## `ConsumeDecimalNumber` -/

variable {digits rest fname : Slice} {n : ℕ}

/-- The loop reads digits as long as their value fits. `done` are the digits that it has read. -/
theorem consumeDigits_eq (done : Slice) (hdigits : ∀ c ∈ digits, isDigit c = true)
    (hrest : ∀ c ∈ rest.head?, isDigit c = false) (hdone : decimalValue done ≤ maxUInt64) :
    consumeDigits (decimalValue done) (digits ++ rest) =
      if decimalValue (done ++ digits) ≤ maxUInt64 then some (decimalValue (done ++ digits), rest)
      else none := by
  induction digits generalizing done with
  | nil =>
    rw [List.append_nil, if_pos hdone, List.nil_append]
    cases rest with
    | nil => rfl
    | cons c rest =>
      have hc : ¬ (48 ≤ c.toNat ∧ c.toNat ≤ 57) := by
        rw [← isDigit_iff, hrest c rfl]
        exact Bool.false_ne_true
      rw [consumeDigits, if_neg hc]
  | cons c digits ih =>
    have hc := isDigit_iff.mp (hdigits c List.mem_cons_self)
    have hstep := decimalValue_append_digit done c
    have hle := decimalValue_le_append (done ++ [c]) digits
    have htail := ih (done ++ [c]) fun d hd => hdigits d (List.mem_cons_of_mem _ hd)
    rw [List.append_assoc, List.singleton_append] at htail hle
    rw [List.cons_append, consumeDigits, if_pos hc]
    dsimp only
    -- the guard of the source is exactly that the next value does not fit
    by_cases hfits : decimalValue (done ++ [c]) ≤ maxUInt64
    · rw [if_neg (by unfold maxUInt64 at hfits ⊢; omega), ← hstep, htail hfits]
    · rw [if_pos (by unfold maxUInt64 at hfits ⊢; omega), if_neg (by omega)]

theorem head?_dropWhile_isDigit (input : Slice) :
    ∀ c ∈ (input.dropWhile isDigit).head?, isDigit c = false := by
  intro c hc
  have hnot := List.head?_dropWhile_not isDigit input
  rw [Option.mem_def.mp hc] at hnot
  simpa using hnot

theorem takeWhile_digits (hdigits : ∀ c ∈ digits, isDigit c = true)
    (hrest : ∀ c ∈ rest.head?, isDigit c = false) :
    (digits ++ rest).takeWhile isDigit = digits ∧ (digits ++ rest).dropWhile isDigit = rest := by
  rw [List.takeWhile_append_of_pos hdigits, List.dropWhile_append_of_pos hdigits]
  cases rest with
  | nil => simp
  | cons c rest => simp [hrest c rfl]

/-- **`ConsumeDecimalNumber`** takes all digits there are. It fails if there are none, and if their
value does not fit in 64 bits. -/
theorem consumeDecimalNumber_eq (input : Slice) : consumeDecimalNumber input =
    if input.takeWhile isDigit ≠ [] ∧ decimalValue (input.takeWhile isDigit) ≤ maxUInt64 then
      some (decimalValue (input.takeWhile isDigit), input.dropWhile isDigit) else none := by
  have hsplit : input.takeWhile isDigit ++ input.dropWhile isDigit = input :=
    List.takeWhile_append_dropWhile
  have hdigits : ∀ c ∈ input.takeWhile isDigit, isDigit c = true := fun c =>
    List.mem_takeWhile_imp
  have hloop := consumeDigits_eq [] hdigits (head?_dropWhile_isDigit input) (Nat.zero_le _)
  rw [hsplit, List.nil_append, decimalValue_nil] at hloop
  have hlen := congrArg List.length hsplit
  rw [List.length_append] at hlen
  unfold consumeDecimalNumber
  rw [hloop]
  by_cases hfits : decimalValue (input.takeWhile isDigit) ≤ maxUInt64
  · rw [if_pos hfits, Option.filter_some]
    by_cases hnil : input.takeWhile isDigit = []
    · rw [hnil, List.length_nil] at hlen
      rw [if_neg (by simp; omega), if_neg fun h => h.1 hnil]
    · have hpos := List.length_pos_iff.mpr hnil
      rw [if_pos (by simp; omega), if_pos ⟨hnil, hfits⟩]
  · rw [if_neg hfits, if_neg fun h => hfits h.2]
    rfl

/-- A text of digits that stands for a 64-bit number. -/
structure Spells (digits : Slice) (n : ℕ) : Prop where
  nonempty : digits ≠ []
  digit : ∀ c ∈ digits, isDigit c = true
  value : decimalValue digits = n
  fits : n ≤ maxUInt64

theorem consumeDecimalNumber_eq_some_iff {input : Slice} :
    consumeDecimalNumber input = some (n, rest) ↔
      ∃ digits, Spells digits n ∧ (∀ c ∈ rest.head?, isDigit c = false) ∧
        input = digits ++ rest := by
  rw [consumeDecimalNumber_eq]
  constructor
  · intro h
    split_ifs at h with hfits
    obtain ⟨rfl, rfl⟩ := Prod.mk.inj (Option.some.inj h)
    exact ⟨input.takeWhile isDigit, ⟨hfits.1, fun c hc => List.mem_takeWhile_imp hc, rfl, hfits.2⟩,
      head?_dropWhile_isDigit input, List.takeWhile_append_dropWhile.symm⟩
  · rintro ⟨digits, hspells, hrest, rfl⟩
    obtain ⟨htake, hdrop⟩ := takeWhile_digits hspells.digit hrest
    rw [htake, hdrop, hspells.value, if_pos ⟨hspells.nonempty, hspells.fits⟩]

theorem consumeDecimalNumber_eq_none_iff (hnonempty : digits ≠ [])
    (hdigits : ∀ c ∈ digits, isDigit c = true) (hrest : ∀ c ∈ rest.head?, isDigit c = false) :
    consumeDecimalNumber (digits ++ rest) = none ↔ maxUInt64 < decimalValue digits := by
  obtain ⟨htake, hdrop⟩ := takeWhile_digits hdigits hrest
  rw [consumeDecimalNumber_eq, htake, hdrop]
  split_ifs with hfits
  · simp [hfits.2]
  · simpa using fun h => hfits ⟨hnonempty, h⟩

/-! ## `ParseFileName` -/

/-- **The names of the files of a database**, with the number and the type of the file. -/
inductive Owned : Slice → ℕ → FileType → Prop
  | current : Owned (ascii "CURRENT") 0 .current
  | lock : Owned (ascii "LOCK") 0 .dbLock
  | infoLog : Owned (ascii "LOG") 0 .infoLog
  | oldInfoLog : Owned (ascii "LOG.old") 0 .infoLog
  | descriptor {digits : Slice} {n : ℕ} (h : Spells digits n) :
      Owned (ascii "MANIFEST-" ++ digits) n .descriptor
  | log {digits : Slice} {n : ℕ} (h : Spells digits n) : Owned (digits ++ ascii ".log") n .log
  | sst {digits : Slice} {n : ℕ} (h : Spells digits n) : Owned (digits ++ ascii ".sst") n .table
  | ldb {digits : Slice} {n : ℕ} (h : Spells digits n) : Owned (digits ++ ascii ".ldb") n .table
  | temp {digits : Slice} {n : ℕ} (h : Spells digits n) : Owned (digits ++ ascii ".dbtmp") n .temp

theorem parseFileName_manifest (rest : Slice) : parseFileName (ascii "MANIFEST-" ++ rest) =
    (consumeDecimalNumber rest).bind fun (num, rest) =>
      if rest = [] then some (num, .descriptor) else none := by
  have hhead : (ascii "MANIFEST-" ++ rest).head? = some 77 := rfl
  have hfixed : ∀ name : Slice, name.head? ≠ some 77 → ascii "MANIFEST-" ++ rest ≠ name := by
    rintro name hletter rfl
    exact hletter hhead
  unfold parseFileName
  rw [if_neg (hfixed (ascii "CURRENT") (by decide)), if_neg (hfixed (ascii "LOCK") (by decide)),
    if_neg (not_or.mpr ⟨hfixed (ascii "LOG") (by decide), hfixed (ascii "LOG.old") (by decide)⟩),
    if_pos (List.isPrefixOf_iff_prefix.mpr (List.prefix_append _ _)), List.drop_left' (by decide)]

/-- The fixed names and `MANIFEST-` start with a letter. -/
theorem parseFileName_of_digit {d : UInt8} (hhead : fname.head? = some d) (hd : isDigit d = true) :
    parseFileName fname = (consumeDecimalNumber fname).bind fun (num, suffix) =>
      (typeOfSuffix suffix).map fun type => (num, type) := by
  have hfixed : ∀ name : Slice, 57 < (name.head?.getD 0).toNat → fname ≠ name := by
    rintro name hletter rfl
    rw [hhead, Option.getD_some] at hletter
    exact absurd (isDigit_iff.mp hd).2 (Nat.not_le.mpr hletter)
  have hmanifest : ¬ (ascii "MANIFEST-").isPrefixOf fname := by
    rw [List.isPrefixOf_iff_prefix]
    rintro ⟨rest, hrest⟩
    have hM : (ascii "MANIFEST-" ++ rest).head? = some 77 := rfl
    exact hfixed _ (by rw [hM]; decide) hrest.symm
  unfold parseFileName
  rw [if_neg (hfixed (ascii "CURRENT") (by decide)), if_neg (hfixed (ascii "LOCK") (by decide)),
    if_neg (not_or.mpr ⟨hfixed (ascii "LOG") (by decide), hfixed (ascii "LOG.old") (by decide)⟩),
    if_neg hmanifest]

theorem Spells.parseFileName (h : Spells digits n) (suffix : Slice) :
    parseFileName (digits ++ (ascii "." ++ suffix)) =
      (typeOfSuffix (ascii "." ++ suffix)).map fun type => (n, type) := by
  obtain ⟨d, hd⟩ := Option.ne_none_iff_exists'.mp (mt List.head?_eq_none_iff.mp h.nonempty)
  have hhead : (digits ++ (ascii "." ++ suffix)).head? = some d := by
    rw [List.head?_append, hd]
    rfl
  have hdot : ∀ c ∈ (ascii "." ++ suffix).head?, isDigit c = false := by
    rintro c hc
    obtain rfl : (46 : UInt8) = c := Option.some.inj hc
    rfl
  rw [parseFileName_of_digit hhead (h.digit d (List.mem_of_mem_head? hd)),
    consumeDecimalNumber_eq_some_iff.mpr ⟨digits, h, hdot, rfl⟩, Option.bind_some]

/-- **`ParseFileName`** accepts exactly the names of the files of a database. -/
theorem parseFileName_eq_some_iff {type : FileType} :
    parseFileName fname = some (n, type) ↔ Owned fname n type := by
  constructor
  · intro h
    unfold Filename.parseFileName at h
    split_ifs at h with hcurrent hlock hlog hmanifest
    · obtain ⟨rfl, rfl⟩ := Prod.mk.inj (Option.some.inj h)
      exact hcurrent ▸ .current
    · obtain ⟨rfl, rfl⟩ := Prod.mk.inj (Option.some.inj h)
      exact hlock ▸ .lock
    · obtain ⟨rfl, rfl⟩ := Prod.mk.inj (Option.some.inj h)
      rcases hlog with rfl | rfl
      · exact .infoLog
      · exact .oldInfoLog
    · obtain ⟨rest, rfl⟩ := List.isPrefixOf_iff_prefix.mp hmanifest
      rw [List.drop_left' (by decide)] at h
      obtain ⟨⟨num, left⟩, hnum, hend⟩ := Option.bind_eq_some_iff.mp h
      dsimp only at hend
      split_ifs at hend with hleft
      obtain ⟨rfl, rfl⟩ := Prod.mk.inj (Option.some.inj hend)
      obtain ⟨digits, hspells, -, rfl⟩ := consumeDecimalNumber_eq_some_iff.mp hnum
      rw [hleft, List.append_nil]
      exact .descriptor hspells
    · obtain ⟨⟨num, suffix⟩, hnum, hend⟩ := Option.bind_eq_some_iff.mp h
      obtain ⟨type', htype, hpair⟩ := Option.map_eq_some_iff.mp hend
      obtain ⟨rfl, rfl⟩ := Prod.mk.inj hpair
      obtain ⟨digits, hspells, -, rfl⟩ := consumeDecimalNumber_eq_some_iff.mp hnum
      unfold typeOfSuffix at htype
      split_ifs at htype with hlog' htable htemp
      · obtain rfl := Option.some.inj htype
        exact hlog' ▸ .log hspells
      · obtain rfl := Option.some.inj htype
        rcases htable with rfl | rfl
        · exact .sst hspells
        · exact .ldb hspells
      · obtain rfl := Option.some.inj htype
        exact htemp ▸ .temp hspells
  · intro h
    cases h with
    | current | lock | infoLog | oldInfoLog => decide
    | descriptor h =>
      have hnum := consumeDecimalNumber_eq_some_iff.mpr ⟨_, h, by simp, (List.append_nil _).symm⟩
      rw [parseFileName_manifest, hnum]
      rfl
    | log h => exact h.parseFileName (ascii "log")
    | sst h => exact h.parseFileName (ascii "sst")
    | ldb h => exact h.parseFileName (ascii "ldb")
    | temp h => exact h.parseFileName (ascii "dbtmp")

/-! ## Names that the database writes are read back -/

theorem spells_padded (hn : n < 2 ^ 64) : Spells (padded n) n where
  nonempty := formatted_ne_nil 6 n
  digit := isDigit_of_mem_formatted 6 n
  value := decimalValue_formatted 6 n
  fits := by unfold maxUInt64; omega

theorem baseName_append (dbname : Slice) {base : Slice} (hbase : 47 ∉ base) :
    baseName (dbname ++ (ascii "/" ++ base)) = base := by
  have hslash : (ascii "/").reverse = [47] := rfl
  have hletters : ∀ c ∈ base.reverse, decide (c ≠ 47) = true := fun c hc =>
    decide_eq_true fun heq => hbase (heq ▸ List.mem_reverse.mp hc)
  unfold baseName
  rw [List.reverse_append, List.reverse_append, List.append_assoc, hslash,
    List.takeWhile_append_of_pos hletters]
  simp

theorem slash_notMem_padded (n : ℕ) : 47 ∉ padded n := fun hmem =>
  absurd (isDigit_of_mem_formatted 6 n 47 hmem) (by decide)

theorem baseName_makeFileName (name : Slice) (n : ℕ) {suffix : Slice} (hsuffix : 47 ∉ suffix) :
    baseName (makeFileName name n suffix) = padded n ++ (ascii "." ++ suffix) := by
  have hdot : 47 ∉ ascii "." := by decide
  exact baseName_append name (by simp [slash_notMem_padded, hdot, hsuffix])

theorem baseName_descriptorFileName (dbname : Slice) (n : ℕ) :
    baseName (descriptorFileName dbname n) = ascii "MANIFEST-" ++ padded n := by
  have hletters : 47 ∉ ascii "MANIFEST-" := by decide
  exact baseName_append dbname (by simp [slash_notMem_padded, hletters])

/-- **File names parse back**, in any directory and for every 64-bit number; only the names of the
files of a database are accepted; and a number in them is rejected exactly if it does not fit. -/
theorem fileNames_parse (dbname : Slice) {n : ℕ} (hn : n < 2 ^ 64) :
    parseFileName (baseName (logFileName dbname n)) = some (n, .log) ∧
      parseFileName (baseName (tableFileName dbname n)) = some (n, .table) ∧
      parseFileName (baseName (sstTableFileName dbname n)) = some (n, .table) ∧
      parseFileName (baseName (tempFileName dbname n)) = some (n, .temp) ∧
      parseFileName (baseName (descriptorFileName dbname n)) = some (n, .descriptor) ∧
      (∀ fname number type, parseFileName fname = some (number, type) ↔ Owned fname number type) ∧
      ∀ digits rest, digits ≠ [] → (∀ c ∈ digits, isDigit c = true) →
        (∀ c ∈ rest.head?, isDigit c = false) →
          (consumeDecimalNumber (digits ++ rest) = none ↔ maxUInt64 < decimalValue digits) := by
  have hspells := spells_padded hn
  refine ⟨?_, ?_, ?_, ?_, ?_, fun _ _ _ => parseFileName_eq_some_iff,
    fun _ _ => consumeDecimalNumber_eq_none_iff⟩
  · rw [logFileName, baseName_makeFileName dbname n (by decide)]
    exact parseFileName_eq_some_iff.mpr (.log hspells)
  · rw [tableFileName, baseName_makeFileName dbname n (by decide)]
    exact parseFileName_eq_some_iff.mpr (.ldb hspells)
  · rw [sstTableFileName, baseName_makeFileName dbname n (by decide)]
    exact parseFileName_eq_some_iff.mpr (.sst hspells)
  · rw [tempFileName, baseName_makeFileName dbname n (by decide)]
    exact parseFileName_eq_some_iff.mpr (.temp hspells)
  · rw [baseName_descriptorFileName]
    exact parseFileName_eq_some_iff.mpr (.descriptor hspells)

/-- The largest number, in a directory whose name ends in a slash. -/
theorem fileNames_parse_max :
    parseFileName (baseName (logFileName (ascii "db/") (2 ^ 64 - 1))) = some (2 ^ 64 - 1, .log) :=
  (fileNames_parse (ascii "db/") (n := 2 ^ 64 - 1) (by norm_num)).1

end Filename

end McfKv
