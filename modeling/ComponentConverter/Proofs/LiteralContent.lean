import ComponentConverter.Proofs.ItemReading
import ComponentConverter.Proofs.TreeInvariant

namespace ComponentConverter.Markup

open List

namespace Cursor

theorem isName_tagItem {c d : Cursor} {item : TagItem} (h : c.tagItem = some (item, d)) :
    ∀ name span value faults, item = .attribute name span value faults → isName name = true := by
  rintro name span value faults rfl
  have hname (hk : c.kind = .name) : isName c.current.lexeme = true := by
    obtain ⟨g, -, -, hs⟩ := past_current (c := c) (by simp [hk])
    rwa [hk] at hs
  cases nextItem_of_tagItem h with
  | valued hk => exact hname hk
  | plain hk => exact hname hk

end Cursor

theorem isName_collectAttributes {items : List TagItem} {known : List Attribute}
    (hi : ∀ item ∈ items, ∀ name span value faults, item = .attribute name span value faults →
      isName name = true) (hk : ∀ a ∈ known, isName a.name = true) :
    ∀ a ∈ (collectAttributes known items).1, isName a.name = true := by
  induction items generalizing known with
  | nil => exact hk
  | cons item items ih =>
    obtain ⟨hitem, hitems⟩ := forall_mem_cons.mp hi
    rcases item with ⟨name, nameSpan, value, own⟩ | fault
    · rw [collectAttributes]
      split
      · exact ih hitems hk
      · apply ih hitems
        intro a ha
        rcases mem_append.mp ha with ha | ha
        · exact hk a ha
        · obtain rfl := mem_singleton.mp ha
          exact hitem _ _ _ _ rfl
    · exact ih hitems hk

theorem isName_startTag (c : Cursor) : ∀ a ∈ c.startTag.1.attributes, isName a.name = true := by
  have hrun : Run Cursor.tagItem c c.tagItems.1 _ := run_exhaust c.rest.length c
  have hitems := hrun.forall_mem fun _ _ _ h => Cursor.isName_tagItem h
  have hall := @isName_collectAttributes _ [] hitems (by simp)
  rw [Cursor.startTag]
  dsimp only
  split <;> exact hall

end ComponentConverter.Markup

namespace ComponentConverter.Svelte

open List Template

section Attributes

theorem eq_append_of_after? {pat t r : Text} (h : after? pat t = some r) : t = pat ++ r := by
  rw [after?] at h
  split at h
  next hpat =>
    obtain ⟨s, rfl⟩ := isPrefixOf_iff_prefix.mp hpat
    rw [drop_left] at h
    rw [Option.some.inj h]
  · cases h

theorem after?_eq_none_iff {pat t : Text} : after? pat t = none ↔ pat.isPrefixOf t = false := by
  rw [after?]
  cases pat.isPrefixOf t <;> simp

theorem afterMark?_eq (short long : String) (t : Text) :
    Attribute.afterMark? short long t = (after? short.toList t).or (after? long.toList t) := by
  rw [Attribute.afterMark?, Option.orElse_eq_orElse, Option.orElse_eq_or]

theorem afterMark?_eq_none_iff {short long : String} {t : Text} : Attribute.afterMark? short long t = none ↔
      short.toList.isPrefixOf t = false ∧ long.toList.isPrefixOf t = false := by
  rw [← after?_eq_none_iff, ← after?_eq_none_iff, afterMark?_eq]
  exact Option.or_eq_none_iff

theorem eq_append_of_afterMark? {short long : String} {t r : Text}
    (h : Attribute.afterMark? short long t = some r) : t = short.toList ++ r ∨ t = long.toList ++ r := by
  rw [afterMark?_eq] at h
  rcases Option.or_eq_some_iff.mp h with h | ⟨-, h⟩
  · exact .inl (eq_append_of_after? h)
  · exact .inr (eq_append_of_after? h)

/-- The attributes with a value of their own: no directives and nothing that is bound. -/
def isStatic (a : Markup.Attribute) : Bool :=
  !(Attribute.directives.any (·.toList == a.name)) &&
    [":", "v-bind:", "@", "v-on:"].all fun mark => !mark.toList.isPrefixOf a.name

variable {a : Markup.Attribute} {x : Attribute}

theorem isStatic_iff : isStatic a = true ↔ Attribute.directives.any (·.toList == a.name) = false ∧
      Attribute.afterMark? ":" "v-bind:" a.name = none ∧ Attribute.afterMark? "@" "v-on:" a.name = none := by
  rw [afterMark?_eq_none_iff, afterMark?_eq_none_iff]
  simp only [isStatic, all_cons, all_nil, Bool.and_true, Bool.and_eq_true, Bool.not_eq_true', and_assoc]

theorem ofTemplate?_static (h : isStatic a = true) : Attribute.ofTemplate? a = some (.plain a.name a.value) := by
  obtain ⟨hd, hbound, hhandler⟩ := isStatic_iff.mp h
  rw [Attribute.ofTemplate?, if_neg (by simp [hd]), hbound, hhandler]

theorem ofTemplate?_cases (h : Attribute.ofTemplate? a = some x) :
    (∃ key, x = .bound key a.value ∧ (a.name = ":" ++ key ∨ a.name = "v-bind:" ++ key)) ∨
    (∃ event, x = .handler event a.value ∧ (a.name = "@" ++ event ∨ a.name = "v-on:" ++ event)) ∨
    isStatic a = true ∧ x = .plain a.name a.value := by
  rw [Attribute.ofTemplate?] at h
  split at h
  · cases h
  next hd =>
    cases hkey : Attribute.afterMark? ":" "v-bind:" a.name with
    | some key =>
      rw [hkey] at h
      exact .inl ⟨key, (Option.some.inj h).symm, eq_append_of_afterMark? hkey⟩
    | none =>
      rw [hkey] at h
      cases hevent : Attribute.afterMark? "@" "v-on:" a.name with
      | some event =>
        rw [hevent] at h
        exact .inr (.inl ⟨event, (Option.some.inj h).symm, eq_append_of_afterMark? hevent⟩)
      | none =>
        rw [hevent] at h
        refine .inr (.inr ⟨isStatic_iff.mpr ⟨?_, hkey, hevent⟩, (Option.some.inj h).symm⟩)
        exact Bool.eq_false_iff.mpr hd

theorem ofTemplate?_named (h : Attribute.ofTemplate? a = some x) (hname : Markup.isName a.name = true) : x.Named := by
  have hletters := inName_of_isName hname
  have hright : ∀ s t : Text, a.name = s ++ t → ∀ c ∈ t, inName c = true := by
    intro s t heq c hc
    exact hletters c (heq ▸ mem_append_right s hc)
  rcases ofTemplate?_cases h with ⟨key, rfl, hkey⟩ | ⟨event, rfl, hevent⟩ | ⟨-, rfl⟩
  · rcases hkey with hkey | hkey <;> exact hright _ _ hkey
  · rcases hevent with hevent | hevent <;> exact hright _ _ hevent
  · refine ⟨?_, hletters⟩
    intro hnil
    rw [hnil] at hname
    cases hname

end Attributes

section Trees

/-- The parts of a text; without interpolations it is one part. -/
def textParts (raw : Text) : List Template.Part := (Template.Part.split? raw).getD [.literal raw]

theorem own_of_mem_itemsOfElement (depth : Nat) (e : Element) {item : Item}
    (h : item ∈ itemsOfElement depth e) : ∃ x ∈ emitted e, ∃ d, item ∈ ownItems d x := by
  obtain ⟨placed, hplaced, hperm⟩ := exists_itemsAt depth e
  obtain ⟨p, hp, hitem⟩ := mem_flatMap.mp (hperm.mem_iff.mp h)
  exact ⟨p.2, hplaced ▸ mem_map_of_mem hp, p.1, hitem⟩

theorem exists_own_in_element (depth : Nat) (e : Element) {x : Element} (h : x ∈ emitted e) :
    ∃ d, ∀ item ∈ ownItems d x, item ∈ itemsOfElement depth e := by
  obtain ⟨placed, hplaced, hperm⟩ := exists_itemsAt depth e
  rw [← hplaced] at h
  obtain ⟨p, hp, rfl⟩ := mem_map.mp h
  exact ⟨p.1, fun item hitem => hperm.mem_iff.mpr (mem_flatMap.mpr ⟨p, hp, hitem⟩)⟩

theorem forall_ownItems {P : Item → Prop} (hd : ∀ depth d, P (.delimiter depth d)) (depth : Nat)
    (tag : Tag) (children : List Node) (branches : List Element) :
    (∀ item ∈ ownItems depth (.mk tag children branches), P item) ↔
      P (.openTag (innerDepth depth tag) tag.name (tag.attributes.filterMap Attribute.ofTemplate?)
        (isClosed tag children)) ∧ ∀ item ∈ contentItems (innerDepth depth tag) tag children, P item := by
  have hheads : ∀ item ∈ heads depth tag, P item := by
    intro item h
    rcases mem_append.mp h with h | h
    · obtain ⟨d, -, rfl⟩ := Option.map_eq_some_iff.mp (Option.mem_toList.mp h)
      exact hd _ d
    · obtain ⟨d, -, rfl⟩ := Option.map_eq_some_iff.mp (Option.mem_toList.mp h)
      exact hd _ d
  have htails : ∀ item ∈ tails (innerDepth depth tag) tag, P item := by
    intro item h
    rcases mem_append.mp h with h | h
    · split at h
      · obtain rfl := mem_singleton.mp h
        exact hd _ _
      · cases h
    · split at h
      · obtain rfl := mem_singleton.mp h
        exact hd _ _
      · cases h
  rw [ownItems, forall_mem_append, forall_mem_append, forall_mem_cons]
  exact ⟨fun h => h.2.1, fun h => ⟨hheads, h, htails⟩⟩

theorem forall_items_iff {P : Item → Prop} {Q : Element → Prop}
    (hPQ : ∀ depth e, (∀ item ∈ ownItems depth e, P item) ↔ Q e) (depth : Nat) (root : Element) :
    (∀ item ∈ itemsOfElement depth root, P item) ↔ ∀ e ∈ emitted root, Q e := by
  constructor
  · intro h e he
    obtain ⟨d, hown⟩ := exists_own_in_element depth root he
    exact (hPQ d e).mp fun item hitem => h item (hown item hitem)
  · intro h item hitem
    obtain ⟨e, he, d, hown⟩ := own_of_mem_itemsOfElement depth root hitem
    exact (hPQ d e).mpr (h e he) item hown

end Trees

section Elements

def LiteralNode : Node → Prop
  | .text raw _ => ∀ part ∈ textParts raw, LiteralPart part
  | _ => True

instance : DecidablePred LiteralNode
  | .element _ | .comment _ _ => inferInstanceAs (Decidable True)
  | .text raw _ => inferInstanceAs (Decidable (∀ part ∈ textParts raw, LiteralPart part))

/-- The plain values of an element hold neither a brace nor a double quote, its texts neither a brace
nor a `<`. -/
def HoldsLiterals (e : Element) : Prop :=
  (∀ a ∈ e.tag.attributes, isStatic a = true → '\x7b' ∉ a.value ∧ '"' ∉ a.value) ∧
    (e.tag.html = none → ∀ n ∈ e.children, LiteralNode n)

instance : DecidablePred HoldsLiterals := fun _ => inferInstanceAs (Decidable (_ ∧ _))

/-- Nothing is bound to an empty name, unless it is empty and written short. -/
def NamesBindings (p : Preferences) (e : Element) : Prop :=
  ∀ a ∈ e.tag.attributes, a.name = ":" ∨ a.name = "v-bind:" → p.shorthand = true ∧ a.value = []

instance (p : Preferences) : DecidablePred (NamesBindings p) := fun e =>
  inferInstanceAs (Decidable (∀ a ∈ e.tag.attributes, _))

/-- The plain values and texts of an element are read as they stand in the source, the white space
around texts apart. -/
structure GivesBack (tokens : List Token) (e : Element) : Prop where
  values : ∃ attributes isClosed, Token.tag e.tag.name attributes isClosed ∈ tokens ∧
    ∀ a ∈ e.tag.attributes, isStatic a = true → .valued a.name (some '"') (a.value.map Chunk.char) ∈ attributes
  texts : e.tag.html = none → ∀ raw span, .text raw span ∈ e.children →
    (trimChunks ((textParts raw).flatMap chunksOfPart)).map Token.chunk <:+: tokens

variable {p : Preferences}

theorem literal_textItem_iff (depth : Nat) (raw : Text) :
    (textItem depth raw).Literal ↔ ∀ part ∈ textParts raw, LiteralPart part := by
  rw [textItem, textParts]
  cases Template.Part.split? raw with
  | some parts => rfl
  | none => simp [Item.Literal]

theorem forall_filterMap_ofTemplate? {P : Attribute → Prop} {as : List Markup.Attribute} :
    (∀ x ∈ as.filterMap Attribute.ofTemplate?, P x) ↔ ∀ a ∈ as, ∀ x, Attribute.ofTemplate? a = some x → P x := by
  simp only [mem_filterMap]
  exact ⟨fun h a ha x hx => h x ⟨a, ha, hx⟩, fun h x ⟨a, ha, hx⟩ => h a ha x hx⟩

theorem forall_contentItems {P : Item → Prop} {inner : Nat} {tag : Tag} {children : List Node}
    (hhtml : ∀ depth x, P (.html depth x)) (hclose : P (.closeTag inner tag.name)) :
    (∀ item ∈ contentItems inner tag children, P item) ↔
      (tag.html = none → ∀ n ∈ children, ∀ item, nodeItem? (inner + 1) n = some item → P item) := by
  rw [contentItems]
  cases htag : tag.html with
  | some x =>
    split <;> simp [hhtml, hclose]
  | none =>
    split
    next hclosed =>
      have hnil : children = [] := by
        rw [isClosed, Bool.and_eq_true, List.isEmpty_iff] at hclosed
        exact hclosed.1
      simp [hnil]
    · rw [forall_mem_append, forall_mem_singleton, and_iff_left hclose]
      simp only [Option.elim_none, mem_filterMap, forall_const]
      exact ⟨fun h n hn item hitem => h item ⟨n, hn, hitem⟩, fun h item hi => hi.elim fun n hn => h n hn.1 item hn.2⟩

theorem literal_ownItems_iff (depth : Nat) (e : Element) :
    (∀ item ∈ ownItems depth e, item.Literal) ↔ HoldsLiterals e := by
  cases e with
  | mk tag children branches =>
    rw [forall_ownItems (fun _ _ => trivial), forall_contentItems (fun _ _ => trivial) trivial]
    constructor
    · rintro ⟨hvalues, htexts⟩
      refine ⟨?_, ?_⟩
      · intro a ha hs
        exact forall_filterMap_ofTemplate?.mp hvalues a ha _ (ofTemplate?_static hs)
      · intro hhtml n hn
        cases n with
        | element e => trivial
        | text raw span => exact (literal_textItem_iff _ raw).mp (htexts hhtml _ hn _ rfl)
        | comment body span => trivial
    · rintro ⟨hvalues, htexts⟩
      refine ⟨forall_filterMap_ofTemplate?.mpr ?_, ?_⟩
      · intro a ha x hx
        rcases ofTemplate?_cases hx with ⟨key, rfl, -⟩ | ⟨event, rfl, -⟩ | ⟨hs, rfl⟩
        · trivial
        · trivial
        · exact hvalues a ha hs
      · intro hhtml n hn item hitem
        cases n with
        | element e => cases hitem
        | text raw span =>
          obtain rfl := Option.some.inj hitem
          exact (literal_textItem_iff _ raw).mpr (htexts hhtml _ hn)
        | comment body span =>
          obtain rfl := Option.some.inj hitem
          trivial

theorem linked_ownItems_iff (depth : Nat) (e : Element) :
    (∀ item ∈ ownItems depth e, item.Linked p) ↔ NamesBindings p e := by
  cases e with
  | mk tag children branches =>
    rw [forall_ownItems (fun _ _ => trivial), forall_contentItems (fun _ _ => trivial) trivial]
    have hcontent : ∀ n ∈ children, ∀ item, nodeItem? (innerDepth depth tag + 1) n = some item → item.Linked p := by
      intro n hn item hitem
      cases n with
      | element e => cases hitem
      | text raw span =>
        obtain rfl := Option.some.inj hitem
        rw [textItem]
        split <;> trivial
      | comment body span =>
        obtain rfl := Option.some.inj hitem
        trivial
    rw [and_iff_left fun _ => hcontent]
    refine forall_filterMap_ofTemplate?.trans ?_
    constructor
    · rintro h ⟨name, value⟩ ha (rfl | rfl)
      · exact h _ ha (.bound [] value) rfl rfl
      · exact h _ ha (.bound [] value) rfl rfl
    · intro h a ha x hx
      rcases ofTemplate?_cases hx with ⟨key, rfl, hkey⟩ | ⟨event, rfl, -⟩ | ⟨-, rfl⟩
      · rintro rfl
        exact h a ha hkey
      · trivial
      · trivial

theorem named_ownItems {source : Text} {e : Element} (h : e.Placed source) (depth : Nat) :
    ∀ item ∈ ownItems depth e, item.Named := by
  have hattributes : ∀ {name attributes tagEnd before head after}, OpenedBy name attributes tagEnd before head after →
        ∀ x ∈ attributes.filterMap Attribute.ofTemplate?, x.Named := by
    rintro name attributes tagEnd before head after ⟨-, inner, -, hstart⟩
    rw [forall_filterMap_ofTemplate?]
    intro a ha x hx
    apply ofTemplate?_named hx
    have hnames := Markup.isName_startTag
      ⟨inner ++ (tagEnd.mark ++ after), bytes before + 1 + bytes name⟩
    rw [hstart] at hnames
    exact hnames a ha
  cases h with
  | alone hsource hopen hend hspan =>
    rw [forall_ownItems (fun _ _ => trivial), forall_contentItems (fun _ _ => trivial) hopen.1]
    exact ⟨⟨hopen.1, hattributes hopen⟩, fun _ n hn => by cases hn⟩
  | enclosing hsource hopen hvoid hclose hspan hlaid hfaithful =>
    rw [forall_ownItems (fun _ _ => trivial), forall_contentItems (fun _ _ => trivial) hopen.1]
    refine ⟨⟨hopen.1, hattributes hopen⟩, ?_⟩
    intro hhtml n hn item hitem
    cases n with
    | element e => cases hitem
    | text raw span =>
      obtain rfl := Option.some.inj hitem
      rw [textItem]
      split <;> trivial
    | comment body span =>
      obtain rfl := Option.some.inj hitem
      exact (hfaithful _ hn).2

theorem infix_flatMap_tokens {items : List Item} {item : Item} (h : item ∈ items) :
    item.tokens p <:+: items.flatMap (·.tokens p) := by
  obtain ⟨before, after, rfl⟩ := append_of_mem h
  refine ⟨before.flatMap (·.tokens p), after.flatMap (·.tokens p), ?_⟩
  simp

theorem infix_tokens_textItem (depth : Nat) (raw : Text) :
    (trimChunks ((textParts raw).flatMap chunksOfPart)).map Token.chunk <:+: (textItem depth raw).tokens p := by
  rw [textItem, textParts]
  cases Template.Part.split? raw with
  | some parts => exact ⟨characters (p.indentation depth), characters ['\n'], by simp [Item.tokens, Item.line]⟩
  | none =>
    have hchunks : [Template.Part.literal raw].flatMap chunksOfPart = raw.map Chunk.char := append_nil _
    rw [Option.getD_none, hchunks, trimChunks_char, map_map]
    exact infix_rfl

theorem givesBack_tokens {root e : Element} (he : e ∈ emitted root) :
    GivesBack ((itemsOfElement 0 root).flatMap (·.tokens p)) e := by
  obtain ⟨d, hown⟩ := exists_own_in_element 0 root he
  cases e with
  | mk tag children branches =>
    refine ⟨⟨(tag.attributes.filterMap Attribute.ofTemplate?).map (·.token p), isClosed tag children, ?_, ?_⟩, ?_⟩
    · have hitem := hown (.openTag (innerDepth d tag) tag.name
        (tag.attributes.filterMap Attribute.ofTemplate?) (isClosed tag children)) (by simp [ownItems])
      exact (infix_flatMap_tokens hitem).subset (mem_line mem_cons_self)
    · intro a ha hs
      exact mem_map_of_mem (mem_filterMap.mpr ⟨a, ha, ofTemplate?_static hs⟩)
    · intro hhtml raw span hmem
      have hitem : textItem (innerDepth d tag + 1) raw ∈ itemsOfElement 0 root := by
        apply hown
        have hclosed : ¬ isClosed tag children = true := by
          cases children with
          | nil => cases hmem
          | cons n ns => simp [isClosed]
        have hcontent : textItem (innerDepth d tag + 1) raw ∈ contentItems (innerDepth d tag) tag children := by
          have hhtml : tag.html = none := hhtml
          rw [contentItems, if_neg hclosed, hhtml]
          exact mem_append_left _ (mem_filterMap.mpr ⟨_, hmem, rfl⟩)
        exact mem_append_right _ (mem_append_left _ (mem_cons_of_mem _ hcontent))
      exact (infix_tokens_textItem _ raw).trans (infix_flatMap_tokens hitem)

theorem holdsLiterals_of_givesBack {tokens : List Token} {e : Element}
    (htokens : ∀ token ∈ tokens, token.Readable) (h : GivesBack tokens e) : HoldsLiterals e := by
  refine ⟨?_, ?_⟩
  · intro a ha hs
    obtain ⟨attributes, isClosed, htag, hvalues⟩ := h.values
    have hvalue := (htokens _ htag) _ (hvalues a ha hs)
    have hchars : ∀ c ∈ a.value, c ≠ '\x7b' ∧ some '"' ≠ some c :=
      fun c hc => hvalue.2 _ (mem_map_of_mem hc)
    exact ⟨fun hc => (hchars _ hc).1 rfl, fun hc => (hchars _ hc).2 rfl⟩
  · intro hhtml n hn
    cases n with
    | element e => trivial
    | comment body span => trivial
    | text raw span =>
      intro part hpart
      cases part with
      | binding e => trivial
      | literal t =>
        have hchars : ∀ c ∈ t, isSpace c = false → c ≠ '\x7b' ∧ c ≠ '<' := by
          intro c hc hs
          have hchunk : Chunk.char c ∈ (textParts raw).flatMap chunksOfPart :=
            mem_flatMap.mpr ⟨_, hpart, mem_map_of_mem hc⟩
          have hkept := mem_trimChunks_of_neg hchunk hs
          exact htokens _ ((h.texts hhtml raw span hn).subset (mem_map_of_mem hkept))
        exact ⟨fun hc => (hchars _ hc (by decide)).1 rfl, fun hc => (hchars _ hc (by decide)).2 rfl⟩

end Elements

section Markup

variable {expression : Text → Option Nat} {p : Preferences}

/-- Where expressions are read whole, written markup gives back the literal content of all written
elements exactly if that holds no character with a meaning of its own and all bindings have names;
then the whole of it is read as it is meant. -/
theorem literals_given_back_iff {source : Text} {root : Element}
    (h : parse source p.comments = (some root, [])) (hp : isBlank p.indent = true)
    (hread : ∀ item ∈ itemsOfElement 0 root, ∀ e ∈ item.expressions, ReadWhole expression e) :
    ((∃ tokens, read expression (markup p root) = some tokens ∧ ∀ e ∈ emitted root, GivesBack tokens e) ↔
      ∀ e ∈ emitted root, HoldsLiterals e ∧ NamesBindings p e) ∧
    ((∀ e ∈ emitted root, HoldsLiterals e ∧ NamesBindings p e) →
      read expression (markup p root) = some ((itemsOfElement 0 root).flatMap (·.tokens p))) := by
  have hnamed : ∀ item ∈ itemsOfElement 0 root, item.Named := by
    intro item hitem
    obtain ⟨e, he, d, hown⟩ := own_of_mem_itemsOfElement 0 root hitem
    exact named_ownItems (parse_sited h e (mem_elements_of_emitted root he)) d item hown
  have hwhole : (∀ e ∈ emitted root, HoldsLiterals e ∧ NamesBindings p e) →
      read expression (markup p root) = some ((itemsOfElement 0 root).flatMap (·.tokens p)) := by
    intro hboth
    have hliteral := (forall_items_iff literal_ownItems_iff 0 root).mpr fun e he => (hboth e he).1
    have hlinked := (forall_items_iff linked_ownItems_iff 0 root).mpr fun e he => (hboth e he).2
    have hrun := run_items hp (fun i hi => ⟨hnamed i hi, hliteral i hi, hlinked i hi, hread i hi⟩) []
    rw [List.append_nil] at hrun
    exact read_of_run hrun
  refine ⟨⟨?_, ?_⟩, hwhole⟩
  · rintro ⟨tokens, htokens, hback⟩ e he
    have hliteral : ∀ e ∈ emitted root, HoldsLiterals e :=
      fun e he => holdsLiterals_of_givesBack (readable_of_read htokens) (hback e he)
    have hlinked := linked_of_read hp hnamed hread
      ((forall_items_iff literal_ownItems_iff 0 root).mpr hliteral) htokens
    exact ⟨hliteral e he, (forall_items_iff linked_ownItems_iff 0 root).mp hlinked e he⟩
  · intro hboth
    exact ⟨_, hwhole hboth, fun e he => givesBack_tokens he⟩

/-- The expression up to the first closing brace. -/
def upToBrace (t : Text) : Option Nat := some (t.takeWhile (· != '\x7d')).length

theorem readWhole_upToBrace {e : Text} (h : '\x7d' ∉ e) : ReadWhole upToBrace e := by
  intro rest
  have hne : ∀ c ∈ e, (c != '\x7d') = true := by
    intro c hc
    rw [bne_iff_ne]
    rintro rfl
    exact h hc
  rw [upToBrace, takeWhile_append_of_pos hne, takeWhile_cons_of_neg (by decide), append_nil]

/-- Values in either quote, a text with an interpolation, a loop and a comment. -/
theorem literals_given_back_list :
    let source := "<ul class='a b'><!-- x --><li v-for=\"x in xs\" id=i>no. \x7b\x7b x \x7d\x7d, it's</li></ul>".toList
    let p : Preferences := ⟨['\t'], true, true, true⟩
    ∃ root, parse source p.comments = (some root, []) ∧
      ∃ tokens, read upToBrace (markup p root) = some tokens ∧ ∀ e ∈ emitted root, GivesBack tokens e := by
  intro source p
  obtain ⟨root, h, hbraces, hboth⟩ : ∃ root, parse source p.comments = (some root, []) ∧
      (∀ item ∈ itemsOfElement 0 root, ∀ e ∈ item.expressions, '\x7d' ∉ e) ∧
      ∀ e ∈ emitted root, HoldsLiterals e ∧ NamesBindings p e :=
    parse_root_of_forall (by decide +kernel)
  have hread : ∀ item ∈ itemsOfElement 0 root, ∀ e ∈ item.expressions, ReadWhole upToBrace e :=
    fun item hitem e he => readWhole_upToBrace (hbraces item hitem e he)
  exact ⟨root, h, (literals_given_back_iff h rfl hread).1.mpr hboth⟩

theorem not_givesBack {root : Element} (h : ¬ ∀ e ∈ emitted root, HoldsLiterals e)
    (expression : Text → Option Nat) (p : Preferences) :
    ¬ ∃ tokens, read expression (markup p root) = some tokens ∧ ∀ e ∈ emitted root, GivesBack tokens e := by
  rintro ⟨tokens, htokens, hback⟩
  exact h fun e he => holdsLiterals_of_givesBack (readable_of_read htokens) (hback e he)

/-- A double quote in a value, a brace in a text and a `<` in a text are lost, whatever counts as an
expression. -/
theorem literals_not_given_back : (∃ root, parse "<p title='say \"hi\"'></p>" false = (some root, []) ∧
      ∀ expression p, ¬ ∃ tokens, read expression (markup p root) = some tokens ∧
        ∀ e ∈ emitted root, GivesBack tokens e) ∧
    (∃ root, parse "<p>a \x7b b</p>" false = (some root, []) ∧
      ∀ expression p, ¬ ∃ tokens, read expression (markup p root) = some tokens ∧
        ∀ e ∈ emitted root, GivesBack tokens e) ∧
    ∃ root, parse "<p>a < b</p>" false = (some root, []) ∧
      ∀ expression p, ¬ ∃ tokens, read expression (markup p root) = some tokens ∧
        ∀ e ∈ emitted root, GivesBack tokens e := by
  have hlost : ∀ source : Text, (parse source false).2 = [] ∧
      (∀ root ∈ (parse source false).1, ¬ ∀ e ∈ emitted root, HoldsLiterals e) →
      ∃ root, parse source false = (some root, []) ∧
        ∀ expression p, ¬ ∃ tokens, read expression (markup p root) = some tokens ∧
          ∀ e ∈ emitted root, GivesBack tokens e := by
    intro source hroot
    obtain ⟨root, h, hnot⟩ := parse_root_of_forall hroot
    exact ⟨root, h, not_givesBack hnot⟩
  exact ⟨hlost _ (by decide +kernel), hlost _ (by decide +kernel), hlost _ (by decide +kernel)⟩

end Markup

end ComponentConverter.Svelte
