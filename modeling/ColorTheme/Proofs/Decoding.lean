import Mathlib
import ColorTheme.Json
import ColorTheme.Digits
import ColorTheme.Text
/-! # JSON texts read back

A reader of JSON texts without numbers and literals. It cuts a text into marks and quoted texts and
then puts values together from the right, so that an opening bracket finds all that it encloses. The
text of any value, with any white space behind it, is read as that value. -/
namespace ColorTheme.Json

open Text

inductive Token where
  | openArray
  | closeArray
  | openObject
  | closeObject
  | comma
  | colon
  | text (s : String)
  deriving DecidableEq

/-- White space between tokens. -/
def isSpace (c : Char) : Bool := c = ' ' || c = '\n' || c = '\r' || c = '\t'

def mark? : Char → Option Token
  | '[' => some .openArray
  | ']' => some .closeArray
  | '{' => some .openObject
  | '}' => some .closeObject
  | ',' => some .comma
  | ':' => some .colon
  | _ => none

/-- What a backslash and the character behind it stand for. -/
def unescape? : Char → Option Char
  | '"' => some '"'
  | '\\' => some '\\'
  | '/' => some '/'
  | 'b' => some (.ofNat 8)
  | 'f' => some (.ofNat 12)
  | 'n' => some '\n'
  | 'r' => some '\r'
  | 't' => some '\t'
  | _ => none

/-- The character of four hexadecimal digits. Halves of a character are not read. -/
def coded? (digits : List Nat) : Option Char :=
  let n := Digits.value 16 digits
  if n.isValidChar then some (.ofNat n) else none

/-- Where the reader of characters stands: between tokens, or within quotes after some characters,
the last of which comes first. -/
inductive Place where
  | outside
  | quoted (done : List Char)
  | escaped (done : List Char)
  | coded (done : List Char) (digits : List Nat)

/-- Reads a character: where it leads to, and the tokens that it ends. -/
def Place.read (c : Char) : Place → Option (Place × List Token)
  | outside =>
    if c = '"' then some (.quoted [], [])
    else if isSpace c then some (.outside, [])
    else (mark? c).map fun t => (.outside, [t])
  | quoted done =>
    if c = '"' then some (.outside, [.text (String.ofList done.reverse)])
    else if c = '\\' then some (.escaped done, [])
    else if c.toNat < 32 then none
    else some (.quoted (c :: done), [])
  | escaped done =>
    if c = 'u' then some (.coded done [], [])
    else (unescape? c).map fun e => (.quoted (e :: done), [])
  | coded done digits =>
    (hexValue? c).bind fun n =>
      if digits.length < 3 then some (.coded done (digits ++ [n]), [])
      else (coded? (digits ++ [n])).map fun e => (.quoted (e :: done), [])

def scan : Place → List Char → Option (List Token)
  | .outside, [] => some []
  | _, [] => none
  | place, c :: s => (place.read c).bind fun (next, ts) => (scan next s).map (ts ++ ·)

theorem scan_cons {place next : Place} {c : Char} {ts : List Token}
    (h : place.read c = some (next, ts)) (s : List Char) :
    scan place (c :: s) = (scan next s).map (ts ++ ·) := by simp [scan, h]

/-- A character that ends no token only changes the place. -/
theorem scan_cons_nil {place next : Place} {c : Char} (h : place.read c = some (next, []))
    (s : List Char) : scan place (c :: s) = scan next s := by simp [scan_cons h]

theorem scan_mark {c : Char} {t : Token} (h : Place.outside.read c = some (.outside, [t]))
    (s : List Char) : scan .outside (c :: s) = (scan .outside s).map (t :: ·) := by
  simp [scan_cons h]

theorem scan_space {c : Char} (h : isSpace c = true) (s : List Char) :
    scan .outside (c :: s) = scan .outside s := by
  refine scan_cons_nil ?_ s
  have hq : c ≠ '"' := by
    rintro rfl
    cases h
  simp [Place.read, hq, h]

theorem scan_newLine (level : Nat) (s : List Char) :
    scan .outside (newLine level ++ s) = scan .outside s := by
  rw [newLine, List.cons_append, scan_space rfl]
  induction 2 * level with
  | zero => rfl
  | succ n ih => rw [List.replicate_succ, List.cons_append, scan_space rfl, ih]

theorem hexValue?_hexDigit (n : Nat) : hexValue? (hexDigit n) = some (n % 16) := by
  have hall : ∀ k < 16, hexValue? (Nat.digitChar k) = some k := by decide
  exact hall (n % 16) (Nat.mod_lt n (by decide))

theorem coded?_control {c : Char} (h : c.toNat < 32) :
    coded? [0, 0, c.toNat / 16 % 16, c.toNat % 16] = some c := by
  have hvalue : Digits.value 16 [0, 0, c.toNat / 16 % 16, c.toNat % 16] = c.toNat := by
    simp only [Digits.value_eq, Digits.step, List.foldl_cons, List.foldl_nil]
    omega
  have hvalid : c.toNat.isValidChar := Or.inl (by omega)
  simp [coded?, hvalue, hvalid]

/-- The ways to write a character inside quotes. -/
inductive Escaped (c : Char) : List Char → Prop
  | short {d : Char} (ne : d ≠ 'u') (stands : unescape? d = some c) : Escaped c ['\\', d]
  | control (lt : c.toNat < 32) :
      Escaped c ['\\', 'u', '0', '0', hexDigit (c.toNat / 16), hexDigit c.toNat]
  | plain (quote : c ≠ '"') (backslash : c ≠ '\\') (ge : ¬ c.toNat < 32) : Escaped c [c]

theorem escaped_escape (c : Char) : Escaped c (escape c) := by
  rw [escape]
  split_ifs with hquote hbackslash hnewline hreturn htab height htwelve hlt
  · subst hquote
    exact .short (by decide) rfl
  · subst hbackslash
    exact .short (by decide) rfl
  · subst hnewline
    exact .short (by decide) rfl
  · subst hreturn
    exact .short (by decide) rfl
  · subst htab
    exact .short (by decide) rfl
  · refine .short (by decide) ?_
    rw [← c.ofNat_toNat, height]
    rfl
  · refine .short (by decide) ?_
    rw [← c.ofNat_toNat, htwelve]
    rfl
  · exact .control hlt
  · exact .plain hquote hbackslash hlt

/-- A character inside quotes is read as itself, however it is written. -/
theorem Escaped.scan_append {c : Char} {written : List Char} (h : Escaped c written)
    (done s : List Char) : scan (.quoted done) (written ++ s) = scan (.quoted (c :: done)) s := by
  have backslash (s : List Char) : scan (.quoted done) ('\\' :: s) = scan (.escaped done) s :=
    scan_cons_nil rfl s
  cases h with
  | @short d ne stands =>
    have hread : (Place.escaped done).read d = some (.quoted (c :: done), []) := by
      simp [Place.read, ne, stands]
    exact (backslash _).trans (scan_cons_nil hread s)
  | control lt =>
    -- the first three digits are gathered, the fourth one ends the character
    have third : (Place.coded done [0, 0]).read (hexDigit (c.toNat / 16)) =
        some (.coded done [0, 0, c.toNat / 16 % 16], []) := by
      simp [Place.read, hexValue?_hexDigit]
    have marked (s : List Char) : scan (.escaped done) ('u' :: '0' :: '0' :: s) =
        scan (.coded done [0, 0]) s := by simp [scan, Place.read, hexValue?, Function.comp_def]
    have fourth : (Place.coded done [0, 0, c.toNat / 16 % 16]).read (hexDigit c.toNat) =
        some (.quoted (c :: done), []) := by
      simp [Place.read, hexValue?_hexDigit, coded?_control lt]
    simp only [List.cons_append, List.nil_append]
    rw [backslash, marked, scan_cons_nil third, scan_cons_nil fourth]
  | plain quote backslash ge =>
    exact scan_cons_nil (by simp [Place.read, quote, backslash, ge]) s

theorem scan_quote (text : String) (s : List Char) :
    scan .outside (quote text ++ s) = (scan .outside s).map (.text text :: ·) := by
  have body (cs done : List Char) : scan (.quoted done) (cs.flatMap escape ++ '"' :: s) =
      (scan .outside s).map (.text (String.ofList (done.reverse ++ cs)) :: ·) := by
    induction cs generalizing done with
    | nil =>
      have hread : (Place.quoted done).read '"' =
          some (.outside, [.text (String.ofList done.reverse)]) := rfl
      simp [scan_cons hread]
    | cons c cs ih =>
      rw [List.flatMap_cons, List.append_assoc, (escaped_escape c).scan_append, ih]
      simp
  have opening : Place.outside.read '"' = some (.quoted [], []) := rfl
  rw [quote, List.cons_append, List.append_assoc, List.singleton_append, scan_cons_nil opening,
    body]
  simp

mutual

def tokens : Json → List Token
  | text s => [.text s]
  | array [] => [.openArray, .closeArray]
  | array (item :: rest) => .openArray :: (item.tokens ++ itemTokens rest ++ [.closeArray])
  | object [] => [.openObject, .closeObject]
  | object ((name, item) :: rest) =>
    .openObject :: .text name :: .colon :: (item.tokens ++ fieldTokens rest ++ [.closeObject])

def itemTokens : List Json → List Token
  | [] => []
  | item :: rest => .comma :: (item.tokens ++ itemTokens rest)

def fieldTokens : List (String × Json) → List Token
  | [] => []
  | (name, item) :: rest => .comma :: .text name :: .colon :: (item.tokens ++ fieldTokens rest)

end

mutual

theorem scan_chars (level : Nat) (s : List Char) : ∀ j : Json,
    scan .outside (j.chars level ++ s) = (scan .outside s).map (j.tokens ++ ·)
  | text _ => by simp [chars, tokens, scan_quote]
  | array [] => by
    simp [chars, tokens, scan_mark (c := '[') rfl, scan_mark (c := ']') rfl, Function.comp_def]
  | array (item :: rest) => by
    simp [chars, tokens, scan_mark (c := '[') rfl, scan_mark (c := ']') rfl, scan_newLine,
      scan_chars _ _ item, scan_itemChars _ _ rest, Function.comp_def]
  | object [] => by
    simp [chars, tokens, scan_mark (c := '{') rfl, scan_mark (c := '}') rfl, Function.comp_def]
  | object ((name, item) :: rest) => by
    simp [chars, tokens, scan_mark (c := '{') rfl, scan_mark (c := '}') rfl,
      scan_mark (c := ':') rfl, scan_space (c := ' ') rfl, scan_newLine, scan_quote,
      scan_chars _ _ item, scan_fieldChars _ _ rest, Function.comp_def]

theorem scan_itemChars (level : Nat) (s : List Char) : ∀ items : List Json,
    scan .outside (itemChars level items ++ s) = (scan .outside s).map (itemTokens items ++ ·)
  | [] => by simp [itemChars, itemTokens]
  | item :: rest => by
    simp [itemChars, itemTokens, scan_mark (c := ',') rfl, scan_newLine, scan_chars _ _ item,
      scan_itemChars _ _ rest, Function.comp_def]

theorem scan_fieldChars (level : Nat) (s : List Char) : ∀ fields : List (String × Json),
    scan .outside (fieldChars level fields ++ s) = (scan .outside s).map (fieldTokens fields ++ ·)
  | [] => by simp [fieldChars, fieldTokens]
  | (name, item) :: rest => by
    simp [fieldChars, fieldTokens, scan_mark (c := ',') rfl, scan_mark (c := ':') rfl,
      scan_space (c := ' ') rfl, scan_newLine, scan_quote, scan_chars _ _ item,
      scan_fieldChars _ _ rest, Function.comp_def]

end

/-- A mark that waits for its bracket, or a value. -/
inductive Item where
  | mark (t : Token)
  | value (j : Json)

/-- The rest of an array, behind its first item, and what stands behind the array. -/
def restOfArray? : List Item → Option (List Json × List Item)
  | .mark .closeArray :: stack => some ([], stack)
  | .mark .comma :: .value j :: stack =>
    (restOfArray? stack).map fun (items, stack) => (j :: items, stack)
  | _ => none

/-- The rest of an object, behind its first field, and what stands behind the object. -/
def restOfObject? : List Item → Option (List (String × Json) × List Item)
  | .mark .closeObject :: stack => some ([], stack)
  | .mark .comma :: .value (.text name) :: .mark .colon :: .value j :: stack =>
    (restOfObject? stack).map fun (fields, stack) => ((name, j) :: fields, stack)
  | _ => none

/-- Puts a token before what stands behind it. -/
def prepend : Token → List Item → Option (List Item)
  | .text s, stack => some (.value (.text s) :: stack)
  | .openArray, .mark .closeArray :: stack => some (.value (.array []) :: stack)
  | .openArray, .value j :: stack =>
    (restOfArray? stack).map fun (items, stack) => .value (.array (j :: items)) :: stack
  | .openArray, _ => none
  | .openObject, .mark .closeObject :: stack => some (.value (.object []) :: stack)
  | .openObject, .value (.text name) :: .mark .colon :: .value j :: stack =>
    (restOfObject? stack).map fun (fields, stack) =>
      .value (.object ((name, j) :: fields)) :: stack
  | .openObject, _ => none
  | t, stack => some (.mark t :: stack)

def build : List Token → Option (List Item)
  | [] => some []
  | t :: ts => (build ts).bind (prepend t)

def ofTokens? (ts : List Token) : Option Json :=
  match build ts with
  | some [.value j] => some j
  | _ => none

theorem restOfArray?_append (items : List Json) (stack : List Item) :
    restOfArray? (items.flatMap (fun j => [.mark .comma, .value j]) ++
      .mark .closeArray :: stack) = some (items, stack) := by
  induction items with
  | nil => rfl
  | cons j items ih => simp [restOfArray?, ih]

theorem restOfObject?_append (fields : List (String × Json)) (stack : List Item) :
    restOfObject? (fields.flatMap (fun (name, j) =>
      [.mark .comma, .value (.text name), .mark .colon, .value j]) ++
      .mark .closeObject :: stack) = some (fields, stack) := by
  induction fields with
  | nil => rfl
  | cons field fields ih => simp [restOfObject?, ih]

mutual

theorem build_tokens (ts : List Token) : ∀ j : Json,
    build (j.tokens ++ ts) = (build ts).map (.value j :: ·)
  | text _ => by cases h : build ts <;> simp [tokens, build, prepend, h]
  | array [] => by cases h : build ts <;> simp [tokens, build, prepend, h]
  | array (item :: rest) => by
    cases h : build ts <;>
      simp [tokens, build, prepend, build_tokens _ item, build_itemTokens _ rest,
        restOfArray?_append, h]
  | object [] => by cases h : build ts <;> simp [tokens, build, prepend, h]
  | object ((name, item) :: rest) => by
    cases h : build ts <;>
      simp [tokens, build, prepend, build_tokens _ item, build_fieldTokens _ rest,
        restOfObject?_append, h]

theorem build_itemTokens (ts : List Token) : ∀ items : List Json,
    build (itemTokens items ++ ts) =
      (build ts).map (items.flatMap (fun j => [.mark .comma, .value j]) ++ ·)
  | [] => by simp [itemTokens]
  | item :: rest => by
    cases h : build ts <;>
      simp [itemTokens, build, prepend, build_tokens _ item, build_itemTokens _ rest, h]

theorem build_fieldTokens (ts : List Token) : ∀ fields : List (String × Json),
    build (fieldTokens fields ++ ts) = (build ts).map (fields.flatMap (fun (name, j) =>
      [.mark .comma, .value (.text name), .mark .colon, .value j]) ++ ·)
  | [] => by simp [fieldTokens]
  | (name, item) :: rest => by
    cases h : build ts <;>
      simp [fieldTokens, build, prepend, build_tokens _ item, build_fieldTokens _ rest, h]

end

def Item.tokens : Item → List Token
  | mark t => [t]
  | value j => j.tokens

theorem tokens_of_restOfArray? {stack rest : List Item} {items : List Json}
    (h : restOfArray? stack = some (items, rest)) :
    stack.flatMap Item.tokens = itemTokens items ++ .closeArray :: rest.flatMap Item.tokens := by
  fun_induction restOfArray? stack generalizing items with
  | case1 stack =>
    cases h
    simp [itemTokens, Item.tokens]
  | case2 j stack ih =>
    obtain ⟨⟨items', rest'⟩, hr, heq⟩ := Option.map_eq_some_iff.1 h
    cases heq
    simp [itemTokens, Item.tokens, ih hr]
  | case3 => cases h

theorem tokens_of_restOfObject? {stack rest : List Item} {fields : List (String × Json)}
    (h : restOfObject? stack = some (fields, rest)) :
    stack.flatMap Item.tokens =
      fieldTokens fields ++ .closeObject :: rest.flatMap Item.tokens := by
  fun_induction restOfObject? stack generalizing fields with
  | case1 stack =>
    cases h
    simp [fieldTokens, Item.tokens]
  | case2 name j stack ih =>
    obtain ⟨⟨fields', rest'⟩, hr, heq⟩ := Option.map_eq_some_iff.1 h
    cases heq
    simp [fieldTokens, Item.tokens, Json.tokens, ih hr]
  | case3 => cases h

theorem tokens_of_prepend {t : Token} {stack stack' : List Item}
    (h : prepend t stack = some stack') :
    stack'.flatMap Item.tokens = t :: stack.flatMap Item.tokens := by
  rw [prepend.eq_def] at h
  split at h
  · cases h
    simp [Item.tokens, Json.tokens]
  · cases h
    simp [Item.tokens, Json.tokens]
  · obtain ⟨⟨items, rest⟩, hr, rfl⟩ := Option.map_eq_some_iff.1 h
    simp [Item.tokens, Json.tokens, tokens_of_restOfArray? hr]
  · cases h
  · cases h
    simp [Item.tokens, Json.tokens]
  · obtain ⟨⟨fields, rest⟩, hr, rfl⟩ := Option.map_eq_some_iff.1 h
    simp [Item.tokens, Json.tokens, tokens_of_restOfObject? hr]
  · cases h
  · cases h
    simp [Item.tokens]

theorem tokens_of_build {ts : List Token} {stack : List Item} (h : build ts = some stack) :
    stack.flatMap Item.tokens = ts := by
  induction ts generalizing stack with
  | nil =>
    cases h
    rfl
  | cons t ts ih =>
    obtain ⟨behind, hb, hp⟩ := Option.bind_eq_some_iff.1 h
    rw [tokens_of_prepend hp, ih hb]

/-- The tokens that are put together to a value are those of the value, and no others. -/
theorem ofTokens?_eq_some_iff {ts : List Token} {j : Json} :
    ofTokens? ts = some j ↔ ts = j.tokens := by
  constructor
  · intro h
    rw [ofTokens?] at h
    split at h
    · rename_i hb
      cases h
      simpa [Item.tokens] using (tokens_of_build hb).symm
    · cases h
  · rintro rfl
    have hb : build (j.tokens ++ []) = some [.value j] := build_tokens [] j
    rw [List.append_nil] at hb
    rw [ofTokens?, hb]

/-- The value that a text writes. -/
def decode? (s : List Char) : Option Json := (scan .outside s).bind ofTokens?

theorem scan_of_space {s : List Char} (h : ∀ c ∈ s, isSpace c = true) :
    scan .outside s = some [] := by
  induction s with
  | nil => rfl
  | cons c s ih =>
    rw [scan_space (h c (by simp)), ih fun c hc => h c (by simp [hc])]

theorem decode?_pretty (j : Json) {s : List Char} (h : ∀ c ∈ s, isSpace c = true) :
    decode? (j.pretty.toList ++ s) = some j := by
  have htokens : scan .outside (j.pretty.toList ++ s) = some j.tokens := by
    simp [pretty, scan_chars, scan_of_space h]
  rw [decode?, htokens, Option.bind_some, ofTokens?_eq_some_iff]

end ColorTheme.Json
