import ComponentConverter.Proofs.Emission
import ComponentConverter.Proofs.MarkupReading
import ComponentConverter.Proofs.Outdenting
import ComponentConverter.Proofs.Placement
import ComponentConverter.Svelte.Markup

namespace ComponentConverter.Svelte

open List Template

variable {e t rest w s : Text} {c : Char} {chunks : List Chunk} {as : List Attribute} {depth : Nat}
variable {ends : Char → Text → Bool} {name : Text} {x : Chunk} {items : List Item}

section Expected

def Delimiter.content : Delimiter → Text
  | .each source item index =>
    "#each ".toList ++ source ++ " as ".toList ++ item ++ index.elim [] fun i => ", ".toList ++ i
  | .endEach => "/each"
  | .ifTrue condition => "#if " ++ condition
  | .elseIf condition => ":else if " ++ condition
  | .otherwise => ":else"
  | .endIf => "/if"

theorem Delimiter.text_eq (d : Delimiter) : d.text = '\x7b' :: (d.content ++ ['\x7d']) := by
  cases d <;> rfl

namespace Attribute

/-- An attribute as it is to be read: a plain value stands for itself. -/
def token (p : Preferences) : Attribute → ReadAttribute
  | .bound key expression =>
    if p.shorthand && key == expression then .short key
    else .valued key p.quote.head? [.braced expression]
  | .handler event expression => .valued ("on:" ++ event) p.quote.head? [.braced expression]
  | .plain name value => .valued name (some '"') (value.map Chunk.char)

def expressions : Attribute → List Text
  | .bound _ expression | .handler _ expression => [expression]
  | .plain _ _ => []

def Literal : Attribute → Prop
  | .plain _ value => '\x7b' ∉ value ∧ '"' ∉ value
  | .bound _ _ | .handler _ _ => True

def Linked (p : Preferences) : Attribute → Prop
  | .bound key expression => key = [] → p.shorthand = true ∧ expression = []
  | .handler _ _ | .plain _ _ => True

def Named : Attribute → Prop
  | .bound key _ => ∀ c ∈ key, inName c = true
  | .handler event _ => ∀ c ∈ event, inName c = true
  | .plain name _ => name ≠ [] ∧ ∀ c ∈ name, inName c = true

end Attribute

def chunksOfPart : Template.Part → List Chunk
  | .literal text => text.map Chunk.char
  | .binding expression => [.braced expression]

/-- A literal part holds neither a brace nor a `<`. -/
def LiteralPart : Template.Part → Prop
  | .literal text => '\x7b' ∉ text ∧ '<' ∉ text
  | .binding _ => True

instance : DecidablePred LiteralPart
  | .literal _ => inferInstanceAs (Decidable (_ ∧ _))
  | .binding _ => inferInstanceAs (Decidable True)

def Chunk.text : Chunk → Text
  | .char c => [c]
  | .braced expression => Attribute.braced expression

def Chunk.isBlank : Chunk → Bool
  | .char c => isSpace c
  | .braced _ => false

def trimChunks (chunks : List Chunk) : List Chunk :=
  ((chunks.dropWhile Chunk.isBlank).reverse.dropWhile Chunk.isBlank).reverse

def characters (t : Text) : List Token := t.map fun c => .chunk (.char c)

namespace Item

def line (p : Preferences) (depth : Nat) (tokens : List Token) : List Token :=
  characters (p.indentation depth) ++ (tokens ++ characters ['\n'])

/-- The tokens as which an item is to be read: texts and plain values stand for themselves. -/
def tokens (p : Preferences) : Item → List Token
  | .delimiter depth d => line p depth [.chunk (.braced d.content)]
  | .openTag depth name attributes isClosed =>
    line p depth [.tag name (attributes.map (·.token p)) isClosed]
  | .closeTag depth name => line p depth [.closing name]
  | .html depth expression => line p depth [.chunk (.braced ("@html " ++ expression))]
  | .dynamic depth parts => line p depth ((trimChunks (parts.flatMap chunksOfPart)).map Token.chunk)
  | .static text => characters (trim text)
  | .comment depth body => line p depth [.comment body]

def expressions : Item → List Text
  | .delimiter _ d => [d.content]
  | .openTag _ _ attributes _ => attributes.flatMap Attribute.expressions
  | .html _ expression => ["@html " ++ expression]
  | .dynamic _ parts => parts.filterMap fun
    | .binding expression => some expression
    | .literal _ => none
  | .closeTag _ _ | .static _ | .comment _ _ => []

def Literal : Item → Prop
  | .openTag _ _ attributes _ => ∀ a ∈ attributes, a.Literal
  | .dynamic _ parts => ∀ part ∈ parts, LiteralPart part
  | .static text => LiteralPart (.literal text)
  | _ => True

def Linked (p : Preferences) : Item → Prop
  | .openTag _ _ attributes _ => ∀ a ∈ attributes, a.Linked p
  | _ => True

/-- The names of tags and attributes can be read, and a comment does not end early. -/
def Named : Item → Prop
  | .openTag _ name attributes _ => TagName name ∧ ∀ a ∈ attributes, a.Named
  | .closeTag _ name => TagName name
  | .comment _ body => ¬ ['-', '-', '>'] <:+: body
  | _ => True

end Item

end Expected

section Runs

variable {expression : Text → Option Nat} {p : Preferences}

/-- An expression is read whole, whatever follows it. -/
def ReadWhole (expression : Text → Option Nat) (e : Text) : Prop :=
  ∀ rest, expression (e ++ '\x7d' :: rest) = some e.length

theorem chunk?_braced (h : ReadWhole expression e) (rest : Text) :
    chunk? expression ('\x7b' :: (e ++ '\x7d' :: rest)) = some (.braced e, rest) := by
  simp only [chunk?, h rest, drop_left, take_left]

theorem chunk?_char (h : c ≠ '\x7b') (rest : Text) : chunk? expression (c :: rest) = some (.char c, rest) := by
  rw [chunk?.eq_def]
  split <;> simp_all

theorem token?_of_ne (h : c ≠ '<') (t : Text) : token? expression (c :: t) =
      (chunk? expression (c :: t)).map fun (chunk, rest) => (.chunk chunk, rest) := by
  rw [token?.eq_def]
  split <;> simp_all

theorem chunksUntil_eq (h : Run (valueChunk? expression ends) t chunks rest)
    (hend : valueChunk? expression ends rest = none) : chunksUntil expression ends t = (chunks, rest) := by
  have hle := h.length_le fun _ _ _ h => (valueChunk?_spec h).1
  exact exhaust_eq_of_run h hend (by omega)

theorem attributes_eq {as : List ReadAttribute}
    (h : Run (attribute? expression) t as rest) (hend : attribute? expression rest = none) :
    attributes expression t = (as, rest) := by
  have hle := h.length_le fun t a rest h => (attribute?_spec t a rest h).1
  exact exhaust_eq_of_run h hend (by omega)

theorem run_valueChars {value : Text} (hbrace : '\x7b' ∉ value)
    (hends : ∀ c ∈ value, ∀ t, ends c t = false) (rest : Text) :
    Run (valueChunk? expression ends) (value ++ rest) (value.map Chunk.char) rest := by
  induction value with
  | nil => exact .done rest
  | cons c value ih =>
    have hc : c ≠ '\x7b' := fun h => hbrace (h ▸ mem_cons_self)
    have hchar : valueChunk? expression ends (c :: (value ++ rest)) = some (.char c, value ++ rest) := by
      rw [valueChunk?, if_neg (by simp [hends c mem_cons_self]), chunk?_char hc]
    exact .more hchar (ih (fun h => hbrace (mem_cons_of_mem _ h))
      fun c hc => hends c (mem_cons_of_mem _ hc))

theorem valueChunk?_braced (h : ReadWhole expression e) (hends : ∀ t, ends '\x7b' t = false) (rest : Text) :
    valueChunk? expression ends ('\x7b' :: (e ++ '\x7d' :: rest)) = some (.braced e, rest) := by
  rw [valueChunk?, if_neg (by simp [hends]), chunk?_braced h]

theorem value?_plain {value : Text} (hbrace : '\x7b' ∉ value) (hquote : '"' ∉ value) (rest : Text) :
    value? expression ('"' :: (value ++ '"' :: rest)) = some ((some '"', value.map Chunk.char), rest) := by
  have hrun : Run (valueChunk? expression fun c _ => c == '"') (value ++ '"' :: rest)
      (value.map Chunk.char) ('"' :: rest) := by
    apply run_valueChars hbrace
    intro c hc t
    rw [beq_eq_false_iff_ne]
    rintro rfl
    exact hquote hc
  have hchunks := chunksUntil_eq hrun rfl
  rw [value?, quotedValue?, hchunks]
  rfl

theorem value?_bare (t : Text) : value? expression ('\x7b' :: t) =
    some ((none, (chunksUntil expression endsBare ('\x7b' :: t)).1),
      (chunksUntil expression endsBare ('\x7b' :: t)).2) := rfl

theorem value?_braced (h : ReadWhole expression e) (hrest : valueChunk? expression endsBare rest = none) :
    value? expression (p.quote ++ (Attribute.braced e ++ (p.quote ++ rest))) =
      some ((p.quote.head?, [.braced e]), rest) := by
  have htext : ∀ r : Text, Attribute.braced e ++ r = '\x7b' :: (e ++ '\x7d' :: r) := by
    intro r
    simp [Attribute.braced]
  rw [htext, Preferences.quote]
  split
  · have hrun : Run (valueChunk? expression fun c _ => c == '"')
        ('\x7b' :: (e ++ '\x7d' :: '"' :: rest)) [.braced e] ('"' :: rest) :=
      .single (valueChunk?_braced h (fun _ => rfl) _)
    have hchunks := chunksUntil_eq hrun rfl
    simp only [cons_append, nil_append, value?, quotedValue?, hchunks]
    rfl
  · have hrun : Run (valueChunk? expression endsBare) ('\x7b' :: (e ++ '\x7d' :: rest)) [.braced e] rest :=
      .single (valueChunk?_braced h (fun _ => rfl) _)
    have hchunks := chunksUntil_eq hrun hrest
    rw [nil_append, nil_append, value?_bare, hchunks]
    rfl

theorem inName_of_continuesName (h : Markup.continuesName c = true) : inName c = true := by
  have hspace : isSpace c = false := Script.not_isSpace (by decide +kernel) h
  have hne : ∀ x, Markup.continuesName x = false → c ≠ x := by
    rintro x hx rfl
    rw [hx] at h
    cases h
  simp [inName, hspace, hne '=' (by decide), hne '/' (by decide), hne '>' (by decide),
    hne '<' (by decide), hne '"' (by decide), hne '\'' (by decide), hne '\x7b' (by decide)]

theorem inName_of_isName (h : Markup.isName name = true) : ∀ c ∈ name, inName c = true := by
  cases name with
  | nil => simp
  | cons x name =>
    obtain ⟨hx, hname⟩ := Bool.and_eq_true_iff.mp h
    intro c hc
    rcases mem_cons.mp hc with rfl | hc
    · exact inName_of_continuesName (by simp [Markup.continuesName, hx])
    · exact inName_of_continuesName (all_eq_true.mp hname c hc)

theorem isSpace_of_inName (h : inName c = true) : isSpace c = false := by
  rw [inName, Bool.not_eq_true', Bool.or_eq_false_iff] at h
  exact h.1

theorem takeWhile_name {t : Text} (hn : ∀ c ∈ name, inName c = true) (ht : ∀ c ∈ t.head?, inName c = false) :
    (name ++ t).takeWhile inName = name ∧ (name ++ t).dropWhile inName = t := by
  rw [takeWhile_append_of_pos hn, dropWhile_append_of_pos hn]
  cases t with
  | nil => simp
  | cons c t =>
    have hc : ¬ inName c = true := by simp [ht c rfl]
    rw [takeWhile_cons_of_neg hc, dropWhile_cons_of_neg hc, append_nil]
    exact ⟨rfl, rfl⟩

theorem attribute?_short (hw : isBlank w = true) (h : ReadWhole expression e) (rest : Text) :
    attribute? expression (w ++ (Attribute.braced e ++ rest)) = some (.short e, rest) := by
  have htext : Attribute.braced e ++ rest = '\x7b' :: (e ++ '\x7d' :: rest) := by
    simp [Attribute.braced]
  rw [attribute?, htext, dropWhile_blank hw (by rintro c ⟨⟩; rfl)]
  split
  next u heq => rw [← heq, chunk?_braced h]
  next hne => exact absurd rfl (hne _)

theorem attribute?_valued {w v rest : Text} {quote : Option Char} {value : List Chunk}
    (hw : isBlank w = true) (hne : name ≠ []) (hn : ∀ c ∈ name, inName c = true)
    (hv : value? expression v = some ((quote, value), rest)) :
    attribute? expression (w ++ (name ++ '=' :: v)) = some (.valued name quote value, rest) := by
  obtain ⟨htake, hdrop⟩ := takeWhile_name (t := '=' :: v) hn (by rintro c ⟨⟩; rfl)
  obtain ⟨x, name', rfl⟩ := exists_cons_of_ne_nil hne
  have hx := hn x mem_cons_self
  rw [attribute?, dropWhile_blank hw (by rintro c ⟨⟩; exact isSpace_of_inName hx)]
  split
  next u heq =>
    obtain ⟨rfl, -⟩ := List.cons.inj heq
    cases hx
  · rw [htake, hdrop]
    simp [hv]

variable {a : Attribute} {rest : Text}

structure Attribute.Clear (expression : Text → Option Nat) (p : Preferences) (a : Attribute) : Prop where
  named : a.Named
  literal : a.Literal
  linked : a.Linked p
  read : ∀ e ∈ a.expressions, ReadWhole expression e

theorem Attribute.text_bound (p : Preferences) (key e : Text) : (Attribute.bound key e).text p =
    if p.shorthand && key == e then braced key else key ++ ['='] ++ p.quote ++ braced e ++ p.quote := rfl

theorem Attribute.text_handler (p : Preferences) (event e : Text) : (Attribute.handler event e).text p =
    "on:" ++ event ++ ['='] ++ p.quote ++ braced e ++ p.quote := rfl

theorem Attribute.text_plain (p : Preferences) (name value : Text) : (Attribute.plain name value).text p =
    name ++ "=\"" ++ value ++ ['"'] := rfl

/-- A written attribute is read as it is meant, if its value holds no brace and no quote. -/
theorem attribute?_text (hw : isBlank w = true) (ha : a.Clear expression p)
    (hrest : valueChunk? expression endsBare rest = none) :
    attribute? expression (w ++ (a.text p ++ rest)) = some (a.token p, rest) := by
  obtain ⟨hnamed, hliteral, hlinked, hread⟩ := ha
  have hvalue : ∀ name e : Text, name ≠ [] → (∀ c ∈ name, inName c = true) → ReadWhole expression e →
      attribute? expression
          (w ++ (name ++ ['='] ++ p.quote ++ Attribute.braced e ++ p.quote ++ rest)) =
        some (.valued name p.quote.head? [.braced e], rest) := by
    intro name e hne hn he
    have hv := attribute?_valued hw hne hn (value?_braced (p := p) he hrest)
    simpa using hv
  cases a with
  | bound key e =>
    have he := hread e mem_cons_self
    rw [Attribute.text_bound, Attribute.token]
    split
    next hshort =>
      obtain ⟨-, hkey⟩ := Bool.and_eq_true_iff.mp hshort
      rw [eq_of_beq hkey]
      exact attribute?_short hw he rest
    next hshort =>
      apply hvalue key e _ hnamed he
      rintro rfl
      obtain ⟨hp, rfl⟩ := hlinked rfl
      simp [hp] at hshort
  | handler event e =>
    apply hvalue _ e (by simp) _ (hread e mem_cons_self)
    intro c hc
    rcases mem_append.mp hc with hc | hc
    · exact all_eq_true.mp (by decide : "on:".toList.all inName = true) c hc
    · exact hnamed c hc
  | plain name value =>
    have hvalue := @value?_plain expression value hliteral.1 hliteral.2 rest
    have hv := attribute?_valued hw hnamed.1 hnamed.2 hvalue
    simpa [Attribute.text_plain, Attribute.token] using hv

theorem valueChunk?_space (h : isSpace c = true) (t : Text) : valueChunk? expression endsBare (c :: t) = none := by
  rw [valueChunk?, if_pos (by simp [endsBare, h])]

theorem run_attributes {x : Char} (hw : isBlank (x :: w) = true) (h : ∀ a ∈ as, a.Clear expression p)
    (hrest : valueChunk? expression endsBare rest = none) :
    Run (attribute? expression) (as.flatMap (fun a => x :: w ++ a.text p) ++ rest)
      (as.map (·.token p)) rest := by
  induction as with
  | nil => exact .done rest
  | cons a as ih =>
    obtain ⟨ha, has⟩ := forall_mem_cons.mp h
    have hnext : valueChunk? expression endsBare
        (as.flatMap (fun a => x :: w ++ a.text p) ++ rest) = none := by
      cases as with
      | nil => exact hrest
      | cons b as => exact valueChunk?_space (Bool.and_eq_true_iff.mp hw).1 _
    rw [flatMap_cons, append_assoc, append_assoc]
    exact .more (attribute?_text hw ha hnext) (ih has)

theorem isBlank_indentation (hp : isBlank p.indent = true) (depth : Nat) : isBlank (p.indentation depth) = true := by
  induction depth with
  | zero => rfl
  | succ depth ih =>
    rw [Preferences.indentation, replicate_succ, flatten_cons, isBlank_append, hp]
    exact ih

def margin (p : Preferences) (depth : Nat) (name : Text) : Text :=
  p.indentation depth ++ List.replicate (name.length + 2) ' '

theorem isBlank_margin (hp : isBlank p.indent = true) (depth : Nat) (name : Text) :
    isBlank ('\n' :: margin p depth name) = true := by
  have hmargin : isBlank (margin p depth name) = true := by
    rw [margin, isBlank_append, isBlank_indentation hp, isBlank, all_replicate]
    rfl
  exact Bool.and_eq_true_iff.mpr ⟨rfl, hmargin⟩

theorem attributesText_cons (depth : Nat) (name : Text) (as : List Attribute) :
    attributesText p depth name (a :: as) =
      [' '] ++ (a.text p ++ as.flatMap fun b => '\n' :: margin p depth name ++ b.text p) := by
  rw [attributesText, if_neg (by simp), map_cons]
  dsimp only
  rw [intercalate_cons, flatMap_map]
  rfl

theorem run_attributesText {depth : Nat} {name : Text} {as : List Attribute}
    (hp : isBlank p.indent = true) (h : ∀ a ∈ as, a.Clear expression p)
    (hrest : valueChunk? expression endsBare rest = none) :
    Run (attribute? expression) (attributesText p depth name as ++ rest) (as.map (·.token p)) rest := by
  cases as with
  | nil => exact .done rest
  | cons a as =>
    obtain ⟨ha, has⟩ := forall_mem_cons.mp h
    have hnext : valueChunk? expression endsBare
        (as.flatMap (fun b => '\n' :: margin p depth name ++ b.text p) ++ rest) = none := by
      cases as with
      | nil => exact hrest
      | cons b as => exact valueChunk?_space rfl _
    rw [attributesText_cons, append_assoc, append_assoc]
    exact .more (attribute?_text rfl ha hnext) (run_attributes (isBlank_margin hp depth name) has hrest)

def tagClose (isClosed : Bool) : Text := if isClosed then ['/', '>'] else ['>']

theorem token?_startTag (hname : TagName name) (t : Text) :
    token? expression ('<' :: (name ++ t)) = startTag? expression (name ++ t) := by
  obtain ⟨c, name', rfl, hc⟩ := hname.eq_cons
  rw [cons_append, token?.eq_def]
  split
  next heq =>
    simp only [List.cons.injEq] at heq
    obtain ⟨-, rfl, -⟩ := heq
    cases hc
  next heq =>
    obtain ⟨-, rfl, -⟩ := heq
    cases hc
  next heq => rw [(List.cons.inj heq).2]
  next hne => exact absurd rfl (hne _)

theorem startTag?_name {t : Text} (hname : TagName name) (ht : ∀ c ∈ t.head?, inName c = false) :
    startTag? expression (name ++ t) =
      (tagEnd? ((attributes expression t).2.dropWhile isSpace)).map fun (isClosed, rest) =>
        (.tag name (attributes expression t).1 isClosed, rest) := by
  obtain ⟨htake, hdrop⟩ := takeWhile_name (inName_of_isName hname.isName) ht
  rw [startTag?, htake, hdrop]

theorem head_attributesText {t : Text} (ht : ∀ c ∈ t.head?, inName c = false) :
    ∀ c ∈ (attributesText p depth name as ++ t).head?, inName c = false := by
  cases as with
  | nil => exact ht
  | cons a as =>
    rintro c ⟨⟩
    rfl

theorem token?_openTag {depth : Nat} {name : Text} {as : List Attribute} (isClosed : Bool)
    (hp : isBlank p.indent = true) (hname : TagName name) (h : ∀ a ∈ as, a.Clear expression p) (t : Text) :
    token? expression ('<' :: (name ++ (attributesText p depth name as ++ (tagClose isClosed ++ t)))) =
      some (.tag name (as.map (·.token p)) isClosed, t) := by
  have hhead : ∀ c ∈ (tagClose isClosed ++ t).head?, inName c = false := by
    cases isClosed <;> (rintro c ⟨⟩; rfl)
  have hvalue : valueChunk? expression endsBare (tagClose isClosed ++ t) = none := by
    cases isClosed <;> rfl
  have hend : attribute? expression (tagClose isClosed ++ t) = none := by
    cases isClosed <;> rfl
  have hrun := @run_attributesText _ _ _ depth name _ hp h hvalue
  rw [token?_startTag hname, startTag?_name hname (head_attributesText hhead), attributes_eq hrun hend]
  cases isClosed <;> rfl

theorem token?_closeTag {name : Text} (hletters : ∀ c ∈ name, inName c = true) (t : Text) :
    token? expression ('<' :: '/' :: (name ++ '>' :: t)) = some (.closing name, t) := by
  obtain ⟨htake, hdrop⟩ := takeWhile_name (t := '>' :: t) hletters (by rintro c ⟨⟩; rfl)
  show closingTag? (name ++ '>' :: t) = _
  rw [closingTag?, htake, hdrop]
  rfl

theorem token?_comment {body : Text} (h : ¬ ['-', '-', '>'] <:+: body) (t : Text) :
    token? expression (commented body ++ t) = some (.comment body, t) := by
  have hb := breakOn?_commentEnd h t
  have htext : commented body ++ t = '<' :: '!' :: '-' :: '-' :: (body ++ '-' :: '-' :: '>' :: t) := by
    simp [commented]
  rw [htext, token?, hb]
  rfl

def Chunk.Sound (expression : Text → Option Nat) : Chunk → Prop
  | .char c => c ≠ '\x7b' ∧ c ≠ '<'
  | .braced e => ReadWhole expression e

theorem token?_braced (h : ReadWhole expression e) (t : Text) :
    token? expression (Attribute.braced e ++ t) = some (.chunk (.braced e), t) := by
  have htext : Attribute.braced e ++ t = '\x7b' :: (e ++ '\x7d' :: t) := by
    simp [Attribute.braced]
  rw [htext, token?_of_ne (by decide), chunk?_braced h]
  rfl

theorem token?_chunk {chunk : Chunk} (h : chunk.Sound expression) (t : Text) :
    token? expression (chunk.text ++ t) = some (.chunk chunk, t) := by
  cases chunk with
  | char c =>
    show token? expression (c :: t) = _
    rw [token?_of_ne h.2, chunk?_char h.1]
    rfl
  | braced e => exact token?_braced h t

theorem run_chunks (h : ∀ chunk ∈ chunks, chunk.Sound expression) (t : Text) :
    Run (token? expression) (chunks.flatMap Chunk.text ++ t) (chunks.map Token.chunk) t := by
  induction chunks with
  | nil => exact .done t
  | cons chunk chunks ih =>
    obtain ⟨hc, hcs⟩ := forall_mem_cons.mp h
    rw [flatMap_cons, append_assoc]
    exact .more (token?_chunk hc _) (ih hcs)

theorem run_characters (h : ∀ c ∈ s, c ≠ '\x7b' ∧ c ≠ '<') (t : Text) :
    Run (token? expression) (s ++ t) (characters s) t := by
  have hsound : ∀ chunk ∈ s.map Chunk.char, chunk.Sound expression := by
    intro chunk hchunk
    obtain ⟨c, hc, rfl⟩ := mem_map.mp hchunk
    exact h c hc
  have hrun := run_chunks hsound t
  have htext : (s.map Chunk.char).flatMap Chunk.text = s := by
    rw [flatMap_map]
    exact flatMap_singleton' s
  rwa [htext, map_map] at hrun

theorem sound_of_isSpace (h : isSpace c = true) : c ≠ '\x7b' ∧ c ≠ '<' := by
  constructor <;>
  · rintro rfl
    cases h

theorem run_line (hp : isBlank p.indent = true) (depth : Nat) {tokens : List Token}
    (h : Run (token? expression) (s ++ '\n' :: t) tokens ('\n' :: t)) :
    Run (token? expression) (p.indentation depth ++ (s ++ '\n' :: t)) (Item.line p depth tokens) t := by
  have hindent := all_eq_true.mp (isBlank_indentation hp depth)
  have hstart : Run (token? expression) (p.indentation depth ++ (s ++ '\n' :: t))
      (characters (p.indentation depth)) (s ++ '\n' :: t) :=
    run_characters (fun c hc => sound_of_isSpace (hindent c hc)) _
  have hbreak : ∀ c ∈ ['\n'], c ≠ '\x7b' ∧ c ≠ '<' := by
    intro c hc
    rw [mem_singleton.mp hc]
    exact sound_of_isSpace rfl
  have hend : Run (token? expression) ('\n' :: t) (characters ['\n']) t := run_characters hbreak t
  exact hstart.trans (h.trans hend)

end Runs

section Trimming

theorem trimStart_chunks (chunks : List Chunk) :
    trimStart (chunks.flatMap Chunk.text) = (chunks.dropWhile Chunk.isBlank).flatMap Chunk.text := by
  induction chunks with
  | nil => rfl
  | cons chunk chunks ih =>
    rw [flatMap_cons, dropWhile_cons]
    cases chunk with
    | braced e => rfl
    | char c =>
      show (c :: chunks.flatMap Chunk.text).dropWhile isSpace = _
      rw [dropWhile_cons]
      by_cases hc : isSpace c = true
      · rw [if_pos hc, if_pos (show (Chunk.char c).isBlank = true from hc)]
        exact ih
      · rw [if_neg hc, if_neg (show ¬ (Chunk.char c).isBlank = true from hc)]
        rfl

theorem trimEnd_chunks (chunks : List Chunk) : trimEnd (chunks.reverse.flatMap Chunk.text) =
      (chunks.dropWhile Chunk.isBlank).reverse.flatMap Chunk.text := by
  induction chunks with
  | nil => rfl
  | cons chunk chunks ih =>
    rw [reverse_cons, flatMap_append, flatMap_singleton, trimEnd_append, dropWhile_cons]
    cases chunk with
    | braced e =>
      have hend : trimEnd (Chunk.braced e).text = (Chunk.braced e).text := by
        apply trimEnd_eq_self
        intro c hc
        rw [Chunk.text, Attribute.braced, getLast?_append] at hc
        cases hc
        rfl
      rw [hend, if_neg (by simp [Chunk.text, Attribute.braced]),
        if_neg (show ¬ (Chunk.braced e).isBlank = true by simp [Chunk.isBlank])]
      simp
    | char c =>
      by_cases hc : isSpace c = true
      · have hend : trimEnd (Chunk.char c).text = [] := by simp [Chunk.text, trimEnd, hc]
        rw [hend, if_pos rfl, if_pos (show (Chunk.char c).isBlank = true from hc), ih]
      · have hend : trimEnd (Chunk.char c).text = [c] := by simp [Chunk.text, trimEnd, hc]
        rw [hend, if_neg (by simp), if_neg (show ¬ (Chunk.char c).isBlank = true from hc)]
        simp [Chunk.text]

theorem trim_chunks (chunks : List Chunk) :
    trim (chunks.flatMap Chunk.text) = (trimChunks chunks).flatMap Chunk.text := by
  rw [trim, trimStart_chunks, trimChunks, ← trimEnd_chunks, reverse_reverse]

theorem mem_dropWhile_of_neg {α : Type} {q : α → Bool} {l : List α} {x : α} (hx : x ∈ l)
    (hq : q x = false) : x ∈ l.dropWhile q := by
  rw [← takeWhile_append_dropWhile (p := q) (l := l)] at hx
  rcases mem_append.mp hx with hx | hx
  · have ht := all_eq_true.mp all_takeWhile x hx
    rw [hq] at ht
    cases ht
  · exact hx

theorem mem_trimChunks_of_neg (hx : x ∈ chunks) (hb : x.isBlank = false) : x ∈ trimChunks chunks := by
  rw [trimChunks, mem_reverse]
  apply mem_dropWhile_of_neg _ hb
  rw [mem_reverse]
  exact mem_dropWhile_of_neg hx hb

theorem mem_of_mem_trim (h : c ∈ trim t) : c ∈ t := by
  rw [trim, trimEnd, mem_reverse] at h
  have h := (dropWhile_sublist _).subset h
  rw [mem_reverse] at h
  exact (dropWhile_sublist _).subset h

theorem mem_of_mem_trimChunks (h : x ∈ trimChunks chunks) : x ∈ chunks := by
  rw [trimChunks, mem_reverse] at h
  have h := (dropWhile_sublist _).subset h
  rw [mem_reverse] at h
  exact (dropWhile_sublist _).subset h

end Trimming

section Items

variable {expression : Text → Option Nat} {p : Preferences} {item : Item}

theorem flatMap_partText (parts : List Template.Part) :
    parts.flatMap partText = (parts.flatMap chunksOfPart).flatMap Chunk.text := by
  rw [flatMap_assoc]
  congr
  funext part
  cases part with
  | literal text =>
    rw [chunksOfPart, flatMap_map]
    exact (flatMap_singleton' text).symm
  | binding e => exact (append_nil _).symm

structure Item.Clear (expression : Text → Option Nat) (p : Preferences) (item : Item) : Prop where
  named : item.Named
  literal : item.Literal
  linked : item.Linked p
  read : ∀ e ∈ item.expressions, ReadWhole expression e

theorem run_item (hp : isBlank p.indent = true) (h : item.Clear expression p) (t : Text) :
    Run (token? expression) (item.text p ++ t) (item.tokens p) t := by
  obtain ⟨hnamed, hliteral, hlinked, hread⟩ := h
  cases item with
  | delimiter depth d =>
    have htext : (Item.delimiter depth d).text p ++ t =
        p.indentation depth ++ (Attribute.braced d.content ++ '\n' :: t) := by
      simp [Item.text, Delimiter.text_eq, Attribute.braced]
    rw [htext]
    exact run_line hp depth (.single (token?_braced (hread _ mem_cons_self) _))
  | openTag depth name attributes isClosed =>
    have htext : (Item.openTag depth name attributes isClosed).text p ++ t =
        p.indentation depth ++ ('<' :: (name ++ (attributesText p depth name attributes ++
          tagClose isClosed)) ++ '\n' :: t) := by
      cases isClosed <;> simp [Item.text, tagClose]
    have hclear : ∀ a ∈ attributes, a.Clear expression p := fun a ha =>
      ⟨hnamed.2 a ha, hliteral a ha, hlinked a ha, fun e he => hread e (mem_flatMap.mpr ⟨a, ha, he⟩)⟩
    have htag := @token?_openTag _ _ depth _ _ isClosed hp hnamed.1 hclear ('\n' :: t)
    rw [htext]
    apply run_line hp depth
    apply Run.single
    simpa using htag
  | closeTag depth name =>
    have htext : (Item.closeTag depth name).text p ++ t =
        p.indentation depth ++ ('<' :: '/' :: (name ++ ['>']) ++ '\n' :: t) := by
      simp [Item.text]
    have htag := @token?_closeTag expression _ (inName_of_isName hnamed.isName) ('\n' :: t)
    rw [htext]
    apply run_line hp depth
    apply Run.single
    simpa using htag
  | html depth e =>
    have htext : (Item.html depth e).text p ++ t =
        p.indentation depth ++ (Attribute.braced ("@html " ++ e) ++ '\n' :: t) := by
      simp [Item.text, Attribute.braced]
    rw [htext]
    exact run_line hp depth (.single (token?_braced (hread _ mem_cons_self) _))
  | dynamic depth parts =>
    have htext : (Item.dynamic depth parts).text p ++ t =
        p.indentation depth ++ ((trimChunks (parts.flatMap chunksOfPart)).flatMap Chunk.text ++ '\n' :: t) := by
      simp [Item.text, flatMap_partText, trim_chunks]
    have hsound : ∀ chunk ∈ parts.flatMap chunksOfPart, chunk.Sound expression := by
      intro chunk hchunk
      obtain ⟨part, hpart, hchunk⟩ := mem_flatMap.mp hchunk
      cases part with
      | literal text =>
        obtain ⟨c, hc, rfl⟩ := mem_map.mp hchunk
        obtain ⟨hbrace, htag⟩ := hliteral _ hpart
        exact ⟨fun h => hbrace (h ▸ hc), fun h => htag (h ▸ hc)⟩
      | binding e =>
        obtain rfl := mem_singleton.mp hchunk
        exact hread e (mem_filterMap.mpr ⟨_, hpart, rfl⟩)
    rw [htext]
    exact run_line hp depth (run_chunks (fun chunk hc => hsound chunk (mem_of_mem_trimChunks hc)) _)
  | static text =>
    apply run_characters
    intro c hc
    have hmem := mem_of_mem_trim hc
    exact ⟨fun h => hliteral.1 (h ▸ hmem), fun h => hliteral.2 (h ▸ hmem)⟩
  | comment depth body =>
    have htext : (Item.comment depth body).text p ++ t = p.indentation depth ++ (commented body ++ '\n' :: t) := by
      simp [Item.text, commented]
    rw [htext]
    exact run_line hp depth (.single (token?_comment hnamed _))

theorem mem_line {token : Token} {tokens : List Token} (h : token ∈ tokens) : token ∈ Item.line p depth tokens :=
  mem_append_right _ (mem_append_left _ h)

theorem run_items (hp : isBlank p.indent = true) (h : ∀ item ∈ items, item.Clear expression p) (t : Text) :
    Run (token? expression) (items.flatMap (·.text p) ++ t) (items.flatMap (·.tokens p)) t := by
  induction items with
  | nil => exact .done _
  | cons item items ih =>
    obtain ⟨hitem, hitems⟩ := forall_mem_cons.mp h
    rw [flatMap_cons, append_assoc]
    exact (run_item hp hitem _).trans (ih hitems)

end Items

section Unlinked

variable {expression : Text → Option Nat} {p : Preferences}

theorem exists_first {α : Type} {P : α → Prop} {l : List α} (h : ¬ ∀ a ∈ l, P a) :
    ∃ before a after, l = before ++ a :: after ∧ (∀ b ∈ before, P b) ∧ ¬ P a := by
  induction l with
  | nil => simp at h
  | cons a l ih =>
    by_cases ha : P a
    · have hl : ¬ ∀ b ∈ l, P b := fun hl => h (forall_mem_cons.mpr ⟨ha, hl⟩)
      obtain ⟨before, b, after, rfl, hbefore, hb⟩ := ih hl
      exact ⟨a :: before, b, after, rfl, forall_mem_cons.mpr ⟨ha, hbefore⟩, hb⟩
    · exact ⟨[], a, l, rfl, by simp, ha⟩

theorem text_of_not_linked {a : Attribute} (h : ¬ a.Linked p) : ∃ t, a.text p = '=' :: t := by
  cases a with
  | bound key e =>
    obtain ⟨rfl, hshort⟩ := Classical.not_imp.mp h
    rw [Attribute.text_bound, if_neg]
    · exact ⟨_, rfl⟩
    · intro hs
      simp at hs
      exact hshort hs
  | handler event e => exact absurd trivial h
  | plain name value => exact absurd trivial h

theorem attributesText_append (depth : Nat) (name : Text) (before : List Attribute) (a : Attribute)
    (after : List Attribute) (hp : isBlank p.indent = true) :
    ∃ x w t, isBlank (x :: w) = true ∧ attributesText p depth name (before ++ a :: after) =
      attributesText p depth name before ++ (x :: w ++ (a.text p ++ t)) := by
  cases before with
  | nil => exact ⟨' ', [], _, rfl, attributesText_cons depth name after⟩
  | cons b before =>
    refine ⟨'\n', margin p depth name, after.flatMap fun b => '\n' :: margin p depth name ++ b.text p,
      isBlank_margin hp depth name, ?_⟩
    rw [cons_append, attributesText_cons, attributesText_cons, flatMap_append, flatMap_cons]
    simp only [append_assoc]

theorem token?_unlinked (hp : isBlank p.indent = true) (hname : TagName name) (hnamed : ∀ a ∈ as, a.Named)
    (hliteral : ∀ a ∈ as, a.Literal) (hread : ∀ a ∈ as, ∀ e ∈ a.expressions, ReadWhole expression e)
    (h : ¬ ∀ a ∈ as, a.Linked p) (t : Text) :
    token? expression ('<' :: (name ++ (attributesText p depth name as ++ t))) = none := by
  obtain ⟨before, a, after, rfl, hlinked, ha⟩ := exists_first h
  obtain ⟨u, hu⟩ := text_of_not_linked ha
  obtain ⟨x, w, v, hw, htext⟩ := attributesText_append depth name before a after hp
  have hrest : ∀ r, (x :: w ++ (a.text p ++ r)).dropWhile isSpace = '=' :: (u ++ r) := by
    intro r
    rw [hu]
    exact dropWhile_blank hw (by rintro c ⟨⟩; rfl)
  have hx : isSpace x = true := (Bool.and_eq_true_iff.mp hw).1
  have hend : attribute? expression (x :: w ++ (a.text p ++ (v ++ t))) = none := by
    rw [attribute?, hrest]
    rfl
  have hvalue : valueChunk? expression endsBare (x :: w ++ (a.text p ++ (v ++ t))) = none := valueChunk?_space hx _
  have hbefore : ∀ b ∈ before, b.Clear expression p := fun b hb =>
    have hmem := mem_append_left _ hb
    ⟨hnamed b hmem, hliteral b hmem, hlinked b hb, hread b hmem⟩
  have hrun := @run_attributesText _ _ _ depth name _ hp hbefore hvalue
  have hhead : ∀ c ∈ (x :: w ++ (a.text p ++ (v ++ t))).head?, inName c = false := by
    rintro c ⟨⟩
    rw [Bool.eq_false_iff]
    intro hc
    rw [isSpace_of_inName hc] at hx
    cases hx
  have hassoc : attributesText p depth name (before ++ a :: after) ++ t =
      attributesText p depth name before ++ (x :: w ++ (a.text p ++ (v ++ t))) := by
    simp [htext]
  rw [token?_startTag hname, hassoc, startTag?_name hname (head_attributesText hhead), attributes_eq hrun hend]
  rw [hrest]
  rfl

theorem read_eq_none_of_run {tokens : List Token} (h : Run (token? expression) s tokens t)
    (ht : token? expression t = none) (hne : t ≠ []) : read expression s = none := by
  have hle := h.length_le fun t token rest h => (token?_spec t token rest h).1
  rw [read, exhaust_eq_of_run h ht (by omega)]
  simp [hne]

theorem linked_of_read (hp : isBlank p.indent = true) (hnamed : ∀ item ∈ items, item.Named)
    (hread : ∀ item ∈ items, ∀ e ∈ item.expressions, ReadWhole expression e)
    (hliteral : ∀ item ∈ items, item.Literal) {tokens : List Token}
    (h : read expression (items.flatMap (·.text p)) = some tokens) : ∀ item ∈ items, item.Linked p := by
  apply Classical.byContradiction
  intro hneg
  obtain ⟨before, item, after, rfl, hlinked, hitem⟩ := exists_first hneg
  have hmem : item ∈ before ++ item :: after := mem_append_right _ mem_cons_self
  have hnameditem := hnamed item hmem
  have hliteralitem := hliteral item hmem
  have hreaditem := hread item hmem
  cases item with
  | openTag depth name attributes isClosed =>
    have hexpressions : ∀ a ∈ attributes, ∀ e ∈ a.expressions, ReadWhole expression e :=
      fun a ha e he => hreaditem e (mem_flatMap.mpr ⟨a, ha, he⟩)
    have hindent := all_eq_true.mp (isBlank_indentation hp depth)
    obtain ⟨t, htext⟩ : ∃ t, (Item.openTag depth name attributes isClosed :: after).flatMap (·.text p) =
        p.indentation depth ++ '<' :: (name ++ (attributesText p depth name attributes ++ t)) := by
      rw [flatMap_cons]
      simp only [Item.text, append_assoc]
      exact ⟨_, rfl⟩
    have hbefore : ∀ i ∈ before, i.Clear expression p := fun i hi =>
      have hmem := mem_append_left _ hi
      ⟨hnamed i hmem, hliteral i hmem, hlinked i hi, hread i hmem⟩
    have hrun := (run_items hp hbefore _).trans (run_characters (fun c hc => sound_of_isSpace (hindent c hc))
      ('<' :: (name ++ (attributesText p depth name attributes ++ t))))
    have hnone := read_eq_none_of_run hrun
      (token?_unlinked hp hnameditem.1 hnameditem.2 hliteralitem hexpressions hitem t) (by simp)
    rw [flatMap_append, htext, hnone] at h
    cases h
  | delimiter | closeTag | html | dynamic | static | comment => exact hitem trivial

end Unlinked

section Literal

variable {p : Preferences}

theorem trimChunks_char (t : Text) : trimChunks (t.map Chunk.char) = (trim t).map Chunk.char := by
  have hdrop : ∀ t : Text, (t.map Chunk.char).dropWhile Chunk.isBlank = (t.dropWhile isSpace).map Chunk.char :=
    fun t => dropWhile_map
  rw [trimChunks, hdrop, ← map_reverse, hdrop, ← map_reverse]
  rfl

end Literal

end ComponentConverter.Svelte
