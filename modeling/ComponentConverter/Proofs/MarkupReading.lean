import ComponentConverter.Proofs.Scanning
import ComponentConverter.Text.Blank

namespace ComponentConverter.Svelte

open List

variable {t rest : Text}

/-- A character that stands for itself, or an expression in braces. -/
inductive Chunk where
  | char (c : Char)
  | braced (expression : Text)
  deriving Repr, DecidableEq

/-- An attribute: an expression that names itself, a name, or a name with a value in some quote. -/
inductive ReadAttribute where
  | short (expression : Text)
  | bare (name : Text)
  | valued (name : Text) (quote : Option Char) (value : List Chunk)
  deriving Repr, DecidableEq

inductive Token where
  | chunk (chunk : Chunk)
  | tag (name : Text) (attributes : List ReadAttribute) (isClosed : Bool)
  | closing (name : Text)
  | comment (body : Text)
  deriving Repr, DecidableEq

variable {chunk : Chunk} {value : List Chunk} {token : Token} {tokens : List Token}

section Reader

-- The number of characters of an expression, up to the brace that closes it.
variable (expression : Text → Option Nat)

def chunk? : Text → Option (Chunk × Text)
  | [] => none
  | '\x7b' :: t =>
    match expression t with
    | some n =>
      match t.drop n with
      | '\x7d' :: rest => some (.braced (t.take n), rest)
      | _ => none
    | none => none
  | c :: t => some (.char c, t)

/-- The next chunk of a value, unless it ends here. -/
def valueChunk? (ends : Char → Text → Bool) : Text → Option (Chunk × Text)
  | [] => none
  | c :: t => if ends c t then none else chunk? expression (c :: t)

def chunksUntil (ends : Char → Text → Bool) (t : Text) : List Chunk × Text :=
  exhaust (valueChunk? expression ends) t.length t

/-- A value without quotes ends at white space, at some marks and at the end of the tag. -/
def endsBare (c : Char) (t : Text) : Bool :=
  isSpace c || ['"', '\'', '=', '<', '>', '\x60'].contains c || (c == '/' && t.head? == some '>')

def quotedValue? (quote : Char) (t : Text) : Option (List Chunk × Text) :=
  match chunksUntil expression (fun c _ => c == quote) t with
  | (value, c :: rest) => if c = quote then some (value, rest) else none
  | (_, []) => none

def value? : Text → Option ((Option Char × List Chunk) × Text)
  | '"' :: t => (quotedValue? expression '"' t).map fun (value, rest) => ((some '"', value), rest)
  | '\'' :: t => (quotedValue? expression '\'' t).map fun (value, rest) => ((some '\'', value), rest)
  | t => let (value, rest) := chunksUntil expression endsBare t; some ((none, value), rest)

def inName (c : Char) : Bool := !(isSpace c || ['=', '/', '>', '<', '"', '\'', '\x7b'].contains c)

def attribute? (t : Text) : Option (ReadAttribute × Text) :=
  match t.dropWhile isSpace with
  | '\x7b' :: u =>
    match chunk? expression ('\x7b' :: u) with
    | some (.braced e, rest) => some (.short e, rest)
    | _ => none
  | u =>
    if (u.takeWhile inName).isEmpty then none
    else
      match u.dropWhile inName with
      | '=' :: v =>
        (value? expression v).map fun ((quote, value), rest) =>
          (.valued (u.takeWhile inName) quote value, rest)
      | rest => some (.bare (u.takeWhile inName), rest)

def attributes (t : Text) : List ReadAttribute × Text := exhaust (attribute? expression) t.length t

/-- The end of a start tag, and whether the element is closed there. -/
def tagEnd? : Text → Option (Bool × Text)
  | '/' :: '>' :: t => some (true, t)
  | '>' :: t => some (false, t)
  | _ => none

def startTag? (t : Text) : Option (Token × Text) :=
  let (attributes, rest) := attributes expression (t.dropWhile inName)
  (tagEnd? (rest.dropWhile isSpace)).map fun (isClosed, rest) =>
    (.tag (t.takeWhile inName) attributes isClosed, rest)

def closingTag? (t : Text) : Option (Token × Text) :=
  match (t.dropWhile inName).dropWhile isSpace with
  | '>' :: rest => some (.closing (t.takeWhile inName), rest)
  | _ => none

def token? : Text → Option (Token × Text)
  | '<' :: '!' :: '-' :: '-' :: t =>
    (breakOn? ['-', '-', '>'] t).map fun (body, rest) => (.comment body, rest)
  | '<' :: '/' :: t => closingTag? t
  | '<' :: t => startTag? expression t
  | t => (chunk? expression t).map fun (chunk, rest) => (.chunk chunk, rest)

def read (t : Text) : Option (List Token) :=
  let (tokens, rest) := exhaust (token? expression) t.length t
  if rest.isEmpty then some tokens else none

end Reader

section Specs

variable {expression : Text → Option Nat}

def Chunk.InValue (quote : Option Char) : Chunk → Prop
  | .char c => c ≠ '\x7b' ∧ quote ≠ some c
  | .braced _ => True

/-- What can be read: attributes have names, and no character is read for itself that opens an
expression, ends a value or opens a tag. -/
def ReadAttribute.Readable : ReadAttribute → Prop
  | .short _ => True
  | .bare name => name ≠ []
  | .valued name quote value => name ≠ [] ∧ ∀ chunk ∈ value, chunk.InValue quote

def Token.Readable : Token → Prop
  | .chunk (.char c) => c ≠ '\x7b' ∧ c ≠ '<'
  | .tag _ attributes _ => ∀ a ∈ attributes, a.Readable
  | _ => True

theorem length_dropWhile_le {α : Type} (q : α → Bool) (l : List α) : (l.dropWhile q).length ≤ l.length :=
  (dropWhile_sublist q).length_le

theorem exhaust_spec {α : Type} {step : Text → Option (α × Text)} {P : α → Prop}
    (h : ∀ t a rest, step t = some (a, rest) → rest.length < t.length ∧ P a) (t : Text) :
    (exhaust step t.length t).2.length ≤ t.length ∧ ∀ a ∈ (exhaust step t.length t).1, P a := by
  have hrun : Run step t _ _ := run_exhaust t.length t
  have hle := hrun.length_le fun t a rest hs => (h t a rest hs).1
  exact ⟨Nat.le_of_add_left_le hle, hrun.forall_mem fun t a rest hs => (h t a rest hs).2⟩

-- Each reader uses up some of the text, and what it reads can be read.

theorem chunk?_spec (h : chunk? expression t = some (chunk, rest)) :
    rest.length < t.length ∧ ∀ c, chunk = .char c → c ≠ '\x7b' ∧ t = c :: rest := by
  rw [chunk?.eq_def] at h
  split at h
  · cases h
  next t =>
    split at h
    next n hn =>
      split at h
      next r hr =>
        obtain ⟨rfl, rfl⟩ := Prod.mk.inj (Option.some.inj h)
        have hlength := congrArg List.length hr
        rw [length_drop, length_cons] at hlength
        refine ⟨?_, by simp⟩
        rw [length_cons]
        omega
      · cases h
    · cases h
  next c t hne =>
    obtain ⟨rfl, rfl⟩ := Prod.mk.inj (Option.some.inj h)
    refine ⟨Nat.lt_succ_self _, ?_⟩
    rintro c ⟨⟩
    exact ⟨hne, rfl⟩

theorem valueChunk?_spec {ends : Char → Text → Bool} (h : valueChunk? expression ends t = some (chunk, rest)) :
    rest.length < t.length ∧ ∀ c, chunk = .char c → c ≠ '\x7b' ∧ ends c rest = false := by
  cases t with
  | nil => cases h
  | cons c t =>
    rw [valueChunk?] at h
    split at h
    · cases h
    next hends =>
      obtain ⟨hlt, hchar⟩ := chunk?_spec h
      refine ⟨hlt, fun c' hc => ?_⟩
      obtain ⟨hbrace, heq⟩ := hchar c' hc
      obtain ⟨rfl, rfl⟩ := List.cons.inj heq
      exact ⟨hbrace, by simpa using hends⟩

theorem chunksUntil_spec {ends : Char → Text → Bool} {quote : Option Char}
    (hq : ∀ c t, ends c t = false → quote ≠ some c) (t : Text) :
    (chunksUntil expression ends t).2.length ≤ t.length ∧
      ∀ chunk ∈ (chunksUntil expression ends t).1, chunk.InValue quote := by
  refine exhaust_spec (fun t chunk rest h => ?_) t
  obtain ⟨hlt, hchar⟩ := valueChunk?_spec h
  refine ⟨hlt, ?_⟩
  cases chunk with
  | braced e => trivial
  | char c => exact ⟨(hchar c rfl).1, hq _ _ (hchar c rfl).2⟩

theorem quotedValue?_spec {quote : Char} (h : quotedValue? expression quote t = some (value, rest)) :
    rest.length ≤ t.length ∧ ∀ chunk ∈ value, chunk.InValue (some quote) := by
  have hends : ∀ (c : Char) (t : Text), (c == quote) = false → some quote ≠ some c := by
    intro c t hne heq
    rw [Option.some.inj heq, beq_self_eq_true] at hne
    cases hne
  have hspec := @chunksUntil_spec expression _ _ hends t
  rw [quotedValue?] at h
  split at h
  next v c r heq =>
    rw [heq] at hspec
    split at h
    · cases h
      exact ⟨Nat.le_of_succ_le hspec.1, hspec.2⟩
    · cases h
  · cases h

theorem value?_spec {quote : Option Char} (h : value? expression t = some ((quote, value), rest)) :
    rest.length ≤ t.length ∧ ∀ chunk ∈ value, chunk.InValue quote := by
  rw [value?.eq_def] at h
  split at h
  next t =>
    obtain ⟨y, hy, ⟨⟩⟩ := Option.map_eq_some_iff.mp h
    exact (quotedValue?_spec hy).imp_left Nat.le_succ_of_le
  next t =>
    obtain ⟨y, hy, ⟨⟩⟩ := Option.map_eq_some_iff.mp h
    exact (quotedValue?_spec hy).imp_left Nat.le_succ_of_le
  · cases h
    exact chunksUntil_spec (by simp) t

theorem attribute?_spec (t : Text) (a : ReadAttribute) (rest : Text)
    (h : attribute? expression t = some (a, rest)) : rest.length < t.length ∧ a.Readable := by
  have hspace := length_dropWhile_le isSpace t
  rw [attribute?] at h
  split at h
  next u heq =>
    split at h
    next e r hchunk =>
      cases h
      have hlt := (chunk?_spec hchunk).1
      rw [heq] at hspace
      exact ⟨Nat.lt_of_lt_of_le hlt hspace, trivial⟩
    · cases h
  · generalize t.dropWhile isSpace = u at h hspace
    split at h
    · cases h
    next hname =>
      have hsplit := congrArg List.length (takeWhile_append_dropWhile (p := inName) (l := u))
      rw [length_append] at hsplit
      have hne : u.takeWhile inName ≠ [] := by simpa using hname
      have hpos := length_pos_iff.mpr hne
      split at h
      next v hv =>
        obtain ⟨y, hy, ⟨⟩⟩ := Option.map_eq_some_iff.mp h
        obtain ⟨hle, hvalue⟩ := value?_spec hy
        rw [hv, length_cons] at hsplit
        exact ⟨by omega, hne, hvalue⟩
      · cases h
        exact ⟨by omega, hne⟩

theorem attributes_spec (t : Text) :
    (attributes expression t).2.length ≤ t.length ∧ ∀ a ∈ (attributes expression t).1, a.Readable :=
  exhaust_spec attribute?_spec t

theorem tagEnd?_le {isClosed : Bool} (h : tagEnd? t = some (isClosed, rest)) : rest.length ≤ t.length := by
  rw [tagEnd?.eq_def] at h
  split at h
  next t =>
    cases h
    exact Nat.le_add_right rest.length 2
  next t =>
    cases h
    exact Nat.le_add_right rest.length 1
  · cases h

theorem startTag?_spec (h : startTag? expression t = some (token, rest)) :
    rest.length ≤ t.length ∧ token.Readable := by
  obtain ⟨⟨isClosed, r⟩, hend, ⟨⟩⟩ := Option.map_eq_some_iff.mp h
  obtain ⟨hle, hreadable⟩ := @attributes_spec expression (t.dropWhile inName)
  refine ⟨?_, hreadable⟩
  calc rest.length
    _ ≤ _ := tagEnd?_le hend
    _ ≤ _ := length_dropWhile_le isSpace _
    _ ≤ _ := hle
    _ ≤ t.length := length_dropWhile_le inName t

theorem closingTag?_spec (h : closingTag? t = some (token, rest)) : rest.length ≤ t.length ∧ token.Readable := by
  rw [closingTag?] at h
  split at h
  next r heq =>
    cases h
    have hname := length_dropWhile_le inName t
    have hspace := length_dropWhile_le isSpace (t.dropWhile inName)
    rw [heq, length_cons] at hspace
    exact ⟨by omega, trivial⟩
  · cases h

theorem token?_spec (t : Text) (token : Token) (rest : Text)
    (h : token? expression t = some (token, rest)) : rest.length < t.length ∧ token.Readable := by
  rw [token?.eq_def] at h
  split at h
  next t =>
    obtain ⟨⟨body, r⟩, hb, ⟨⟩⟩ := Option.map_eq_some_iff.mp h
    have hlength := congrArg List.length (eq_of_breakOn? hb)
    simp only [length_append, length_cons] at hlength ⊢
    exact ⟨by omega, trivial⟩
  next t _ => exact (closingTag?_spec h).imp_left fun hle => Nat.lt_succ_of_lt (Nat.lt_succ_of_le hle)
  next t _ _ => exact (startTag?_spec h).imp_left Nat.lt_succ_of_le
  next htag =>
    obtain ⟨⟨chunk, r⟩, hy, ⟨⟩⟩ := Option.map_eq_some_iff.mp h
    obtain ⟨hlt, hchar⟩ := chunk?_spec hy
    refine ⟨hlt, ?_⟩
    cases chunk with
    | braced e => trivial
    | char c =>
      obtain ⟨hbrace, rfl⟩ := hchar c rfl
      refine ⟨hbrace, ?_⟩
      rintro rfl
      exact htag _ rfl

theorem readable_of_read (h : read expression t = some tokens) : ∀ token ∈ tokens, token.Readable := by
  rw [read] at h
  dsimp only at h
  split at h
  · cases h
    exact (exhaust_spec token?_spec t).2
  · cases h

theorem read_of_run (h : Run (token? expression) t tokens []) : read expression t = some tokens := by
  have hle := h.length_le fun t token rest h => (token?_spec t token rest h).1
  rw [read, exhaust_eq_of_run h rfl (by simpa using hle)]
  rfl

end Specs

end ComponentConverter.Svelte
