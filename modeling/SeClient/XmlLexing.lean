import SeClient.CharacterData
import SeClient.XmlPrinting
import SeClient.XmlValues

/-!
# Reading what is printed

`xml_token` on the text of a document: the tags with their attributes, and the texts between them,
one token after the other.
-/

namespace SeClient

/-! ## Names -/

/-- A name that `xml_name` reads whole, of characters of ASCII. -/
structure IsName (s : CString) : Prop where
  start : ∀ b ∈ s.head?, nameStart b.toNat = true
  nonempty : s ≠ []
  chars : ∀ b ∈ s, b < 128 ∧ nameChar b.toNat = true

section Names
variable {s rest : CString} {d : UInt8} {fuel : ℕ}

/-- A character behind a name. -/
def Delimits (d : UInt8) : Prop := d < 128 ∧ nameChar d.toNat = false

theorem nameRest_of (hs : ∀ b ∈ s, b < 128 ∧ nameChar b.toNat = true) (hd : Delimits d)
    (hfuel : s.length < fuel) : nameRest fuel (s ++ d :: rest) = some (d :: rest) := by
  induction s generalizing fuel with
  | nil =>
    obtain ⟨k, rfl⟩ := Nat.exists_eq_succ_of_ne_zero (Nat.ne_zero_of_lt hfuel)
    rw [List.nil_append, nameRest, utf8Char_ascii hd.1]
    simp [hd.2]
  | cons b s ih =>
    obtain ⟨k, rfl⟩ := Nat.exists_eq_succ_of_ne_zero (Nat.ne_zero_of_lt hfuel)
    obtain ⟨⟨hascii, hchar⟩, hs⟩ := List.forall_mem_cons.1 hs
    rw [List.cons_append, nameRest, utf8Char_ascii hascii]
    simp only [hchar, if_true]
    exact ih hs (Nat.lt_of_succ_lt_succ hfuel)

/-- A name is read up to what is behind it. -/
theorem xmlName_of (hs : IsName s) (hd : Delimits d) :
    xmlName (s ++ d :: rest) = some (d :: rest) := by
  obtain ⟨b, bs, rfl⟩ := List.exists_cons_of_ne_nil hs.nonempty
  obtain ⟨⟨hascii, -⟩, hchars⟩ := List.forall_mem_cons.1 hs.chars
  rw [List.cons_append, xmlName, utf8Char_ascii hascii]
  simp only [hs.start b rfl, if_true]
  refine nameRest_of hchars hd ?_
  rw [List.length_cons, List.length_append]
  omega

theorem xmlName_delimiter (hd : Delimits d) : xmlName (d :: rest) = none := by
  have hstart : nameStart d.toNat = false := by
    have hchar := hd.2
    unfold nameChar at hchar
    simp only [Bool.or_eq_false_iff] at hchar
    exact hchar.1.1.1.2
  rw [xmlName, utf8Char_ascii hd.1]
  simp [hstart]

theorem delimits_slash : Delimits 47 := ⟨by decide, by decide⟩

theorem delimits_greater : Delimits 62 := ⟨by decide, by decide⟩

theorem delimits_equal : Delimits 61 := ⟨by decide, by decide⟩

theorem delimits_space : Delimits 32 := ⟨by decide, by decide⟩

/-- No name starts with white space or markup. -/
theorem IsName.head (hs : IsName s) : ∃ b bs, s = b :: bs ∧ ws b = false ∧ b ≠ 33 ∧ b ≠ 63 ∧
    b ≠ 47 ∧ b ≠ 60 := by
  obtain ⟨b, bs, rfl⟩ := List.exists_cons_of_ne_nil hs.nonempty
  have hstart := hs.start b rfl
  refine ⟨b, bs, rfl, ?_, ?_, ?_, ?_, ?_⟩
  · by_contra hws
    rw [Bool.not_eq_false, ws_iff] at hws
    rcases hws with rfl | rfl | rfl | rfl <;> exact absurd hstart (by decide)
  all_goals
    rintro rfl
    exact absurd hstart (by decide)

end Names

/-! ## Attributes -/

/-- A value that stands between quotation marks as it is. -/
def Quotable (s : CString) : Prop := ∀ b ∈ s, b ≠ 34 ∧ b ≠ 38 ∧ b ≠ 60

/-- Attributes that are read as they are printed. -/
def AttributesRead (attrs : List (CString × CString)) : Prop :=
  ∀ y ∈ attrs, IsName y.1 ∧ Quotable y.2

section Attributes
variable {s rest value : CString} {d : UInt8} {fuel : ℕ} {y : CString × CString}
  {attr attrs : List (CString × CString)}

theorem attLoop_quotable (hs : Quotable s) (hfuel : s.length < fuel) :
    attLoop 34 fuel value (s ++ 34 :: rest) = some (some (value ++ s, rest)) := by
  induction s generalizing fuel value with
  | nil =>
    obtain ⟨k, rfl⟩ := Nat.exists_eq_succ_of_ne_zero (Nat.ne_zero_of_lt hfuel)
    rw [List.append_nil]
    rfl
  | cons b s ih =>
    obtain ⟨k, rfl⟩ := Nat.exists_eq_succ_of_ne_zero (Nat.ne_zero_of_lt hfuel)
    obtain ⟨⟨hquote, hamp, hlt⟩, hs⟩ := List.forall_mem_cons.1 hs
    rw [List.cons_append, attLoop, if_neg hlt, if_neg hamp, if_neg hquote,
      ih hs (Nat.lt_of_succ_lt_succ hfuel), List.append_assoc]
    rfl

theorem attValue_quotable (hs : Quotable s) :
    attValue (34 :: (s ++ 34 :: rest)) = some (some (s, rest)) := by
  have hloop := @attLoop_quotable _ rest [] _ hs
    (show s.length < (s ++ 34 :: rest).length + 1 by rw [List.length_append]; omega)
  rw [attValue, if_pos (Or.inl rfl), hloop]
  rfl

/-- One attribute. -/
theorem attributesLoop_one (hy : IsName y.1) (hvalue : Quotable y.2) (i : ℕ) :
    attributesLoop (fuel + 1) i attr (y.1 ++ 61 :: 34 :: (y.2 ++ 34 :: rest)) =
      attributesLoop fuel ((i + 1) % maxAttribute) (setAttr attr i y) (trim rest) := by
  have heq : xmlEq (61 :: 34 :: (y.2 ++ 34 :: rest)) = some (34 :: (y.2 ++ 34 :: rest)) := rfl
  rw [attributesLoop, xmlName_of hy delimits_equal]
  simp only [heq, attValue_quotable hvalue, upTo_append]

theorem trim_head (hd : ws d = false) : trim (d :: rest) = d :: rest :=
  List.dropWhile_cons_of_neg (by simp [hd])

/-- The attributes that are still to be read. -/
theorem attributesLoop_more (hd : Delimits d) (hws : ws d = false) (hall : AttributesRead attrs)
    (hlength : attr.length + attrs.length ≤ maxAttribute) (hfuel : attrs.length < fuel) :
    attributesLoop fuel (attr.length % maxAttribute) attr
      (trim (attrs.flatMap attributeText ++ d :: rest)) =
        some (some (attr ++ attrs, d :: rest)) := by
  induction attrs generalizing fuel attr with
  | nil =>
    obtain ⟨k, rfl⟩ := Nat.exists_eq_succ_of_ne_zero (Nat.ne_zero_of_lt hfuel)
    rw [List.flatMap_nil, List.nil_append, trim_head hws, attributesLoop, xmlName_delimiter hd,
      List.append_nil]
  | cons y attrs ih =>
    obtain ⟨k, rfl⟩ := Nat.exists_eq_succ_of_ne_zero (Nat.ne_zero_of_lt hfuel)
    obtain ⟨⟨hname, hvalue⟩, hall⟩ := List.forall_mem_cons.1 hall
    obtain ⟨b, bs, hb, hblank, -⟩ := hname.head
    rw [List.length_cons] at hlength hfuel
    have hsmall : attr.length % maxAttribute = attr.length := Nat.mod_eq_of_lt (by omega)
    have htext : trim ((y :: attrs).flatMap attributeText ++ d :: rest) =
        y.1 ++ 61 :: 34 :: (y.2 ++ 34 :: (attrs.flatMap attributeText ++ d :: rest)) := by
      have hspace : (y :: attrs).flatMap attributeText ++ d :: rest =
          32 :: (y.1 ++ 61 :: 34 :: (y.2 ++ 34 :: (attrs.flatMap attributeText ++ d :: rest))) := by
        simp [attributeText]
      rw [hspace, hb]
      exact (List.dropWhile_cons_of_pos rfl).trans (trim_head hblank)
    have hset : setAttr attr attr.length y = attr ++ [y] := if_neg (Nat.lt_irrefl _)
    have hmore := @ih k (attr ++ [y]) hall
      (by rw [List.length_append, List.length_singleton]; omega) (by omega)
    rw [List.length_append, List.length_singleton, List.append_assoc,
      List.singleton_append] at hmore
    rw [htext, attributesLoop_one hname hvalue, hsmall, hset]
    exact hmore

/-- The attributes in a tag. -/
theorem tagAttributes_of (p : XmlParser) (hd : Delimits d) (hws : ws d = false)
    (hall : AttributesRead attrs) (hlength : attrs.length ≤ maxAttribute) :
    tagAttributes p (attrs.flatMap attributeText ++ d :: rest) =
      some (some ({ p with attr := if attrs = [] then p.attr else attrs }, d :: rest)) := by
  cases attrs with
  | nil =>
    rw [List.flatMap_nil, List.nil_append, tagAttributes]
    simp [hws]
  | cons y attrs =>
    have hmore := @attributesLoop_more rest d _ [] _ hd hws hall
      (by rwa [List.length_nil, Nat.zero_add])
      (show (y :: attrs).length <
        ((y :: attrs).flatMap attributeText ++ d :: rest).length by
          rw [List.length_append, List.length_cons, List.length_cons]
          have hlong : ∀ l : List (CString × CString),
              l.length ≤ (l.flatMap attributeText).length := by
            intro l
            induction l with
            | nil => exact Nat.le_refl 0
            | cons z l ih =>
              rw [List.flatMap_cons, List.length_append, List.length_cons, attributeText,
                List.length_cons]
              omega
          have hle := hlong (y :: attrs)
          rw [List.length_cons] at hle
          omega)
    have hspace : ∃ s, (y :: attrs).flatMap attributeText ++ d :: rest = 32 :: s :=
      ⟨_, rfl⟩
    obtain ⟨s, hs⟩ := hspace
    rw [hs] at hmore ⊢
    have hread : xmlAttributes s = some (some (y :: attrs, d :: rest)) := hmore
    rw [tagAttributes, hread]
    rfl

end Attributes

/-! ## Tags -/

section Tags
variable {s rest lead next : CString} {p q : XmlParser} {c : UInt8} {entry fuel : ℕ}
  {attrs : List (CString × CString)} {empty : Bool}

/-- `xml_tag` at the end of an element. -/
theorem xmlTag_close (p : XmlParser) (hs : IsName s) : xmlTag p (47 :: (s ++ 62 :: rest)) =
    some (some { p with name := s, token := .endTag, data := rest }) := by
  have htrim : trim (62 :: rest) = 62 :: rest := rfl
  rw [xmlTag, xmlName_of hs delimits_greater]
  simp only [htrim, closeTag, upTo_append]

/-- `xml_tag` at a name. -/
theorem xmlTag_name (p : XmlParser) (hc : c ≠ 47) {data : CString} (hdata : data = c :: next) :
    xmlTag p data = match xmlName data with
      | none => some none
      | some rest =>
        match tagAttributes { p with name := upTo data rest } rest with
        | none => none
        | some none => some none
        | some (some (p, 47 :: data)) => some (closeTag p .emptyTag data)
        | some (some (p, data)) => some (closeTag p .startTag data) := by
  subst hdata
  unfold xmlTag
  split
  · rename_i heq
    exact absurd (List.cons.inj heq).1 hc
  · rfl

/-- `xml_tag` at a start tag or an empty tag. -/
theorem xmlTag_open (p : XmlParser) (hs : IsName s) (hall : AttributesRead attrs)
    (hlength : attrs.length ≤ maxAttribute) : xmlTag p (s ++ (attrs.flatMap attributeText ++
      (if empty then [47, 62] else [62])) ++ rest) = some (some { p with
        name := s, attr := if attrs = [] then p.attr else attrs
        token := if empty then .emptyTag else .startTag, data := rest }) := by
  obtain ⟨b, bs, hb, -, -, -, hslash, -⟩ := hs.head
  have hname : ∀ d, Delimits d → ∀ data, xmlName (s ++ (attrs.flatMap attributeText ++
      d :: data)) = some (attrs.flatMap attributeText ++ d :: data) := by
    intro d hd data
    cases attrs with
    | nil => exact xmlName_of hs hd
    | cons y attrs => exact xmlName_of hs delimits_space
  cases empty with
  | false =>
    have hdata : s ++ (attrs.flatMap attributeText ++ (if false then [47, 62] else [62])) ++ rest =
        s ++ (attrs.flatMap attributeText ++ 62 :: rest) := by simp
    have hcons : s ++ (attrs.flatMap attributeText ++ 62 :: rest) =
        b :: (bs ++ (attrs.flatMap attributeText ++ 62 :: rest)) := by rw [hb]; rfl
    rw [hdata, xmlTag_name p hslash hcons, hname 62 delimits_greater rest]
    simp only [tagAttributes_of _ delimits_greater (show ws 62 = false from rfl) hall hlength,
      upTo_append, closeTag]
    rfl
  | true =>
    have hdata : s ++ (attrs.flatMap attributeText ++ (if true then [47, 62] else [62])) ++ rest =
        s ++ (attrs.flatMap attributeText ++ 47 :: 62 :: rest) := by simp
    have hcons : s ++ (attrs.flatMap attributeText ++ 47 :: 62 :: rest) =
        b :: (bs ++ (attrs.flatMap attributeText ++ 47 :: 62 :: rest)) := by rw [hb]; rfl
    rw [hdata, xmlTag_name p hslash hcons, hname 47 delimits_slash (62 :: rest)]
    simp only [tagAttributes_of _ delimits_slash (show ws 47 = false from rfl) hall hlength,
      upTo_append, closeTag]
    rfl

/-! ## Tokens -/

/-- The parser is in front of `data`: behind a tag, or behind a text and the `<` that ends it. -/
def XmlParser.Rests (p : XmlParser) (data : CString) : Prop :=
  p.token ≠ .xmlText ∧ (p.state = 0 ∧ p.data = data ∨ p.state = 2 ∧ 60 :: p.data = data)

theorem tokenLoop_tag (hstate : p.state = 2) (htoken : p.token ≠ .xmlText)
    (hdata : p.data = c :: next) (hbang : c ≠ 33) (hquestion : c ≠ 63) (hmem : 62 ∈ next)
    (htag : xmlTag p (c :: next) = some (some q)) :
    tokenLoop entry (fuel + 1) p = some (q.token, { q with state := 0 }) := by
  rw [tokenLoop]
  simp only [hstate, hdata, if_neg hbang, if_neg hquestion, if_neg htoken, if_pos hmem, htag]

/-- White space in front of a tag is passed over. -/
theorem tokenLoop_lead (hstate : p.state = 0) (hlead : ∀ b ∈ lead, ws b = true)
    (hdata : p.data = lead ++ 60 :: next) : tokenLoop entry (fuel + 2) p =
      tokenLoop entry (fuel + if lead = [] then 1 else 0) { p with state := 2, data := next } := by
  cases lead with
  | nil =>
    rw [tokenLoop]
    simp only [hstate, hdata, List.nil_append, if_true]
  | cons b lead =>
    obtain ⟨hb, hlead⟩ := List.forall_mem_cons.1 hlead
    have hlt : b ≠ 60 := by
      rintro rfl
      exact absurd hb (by decide)
    have htrim : trim (lead ++ 60 :: next) = 60 :: next := by
      unfold trim
      rw [List.dropWhile_append_of_pos hlead]
      rfl
    rw [tokenLoop]
    simp only [hstate, hdata, List.cons_append, if_neg hlt, hb, if_true, htrim]
    rw [tokenLoop]
    simp only [if_true]
    rfl

/-- **A tag is read**, with the white space in front of it. -/
theorem XmlParser.Rests.tag (h : p.Rests (lead ++ 60 :: c :: next))
    (hlead : ∀ b ∈ lead, ws b = true) (hbang : c ≠ 33) (hquestion : c ≠ 63) (hmem : 62 ∈ next)
    (htag : xmlTag { p with state := 2, data := c :: next } (c :: next) = some (some q)) :
    xmlToken p = some (q.token, { q with state := 0 }) := by
  have hopen : ∀ fuel, tokenLoop p.state (fuel + 1) { p with state := 2, data := c :: next } =
      some (q.token, { q with state := 0 }) := fun fuel =>
    tokenLoop_tag rfl h.1 rfl hbang hquestion hmem htag
  rcases h.2 with ⟨hstate, hdata⟩ | ⟨hstate, hdata⟩
  · have hlength : ∃ fuel, p.data.length + 2 = fuel + 1 + 2 := by
      rw [hdata, List.length_append, List.length_cons]
      exact ⟨lead.length + (c :: next).length, by omega⟩
    obtain ⟨fuel, hfuel⟩ := hlength
    rw [xmlToken, hfuel, tokenLoop_lead hstate hlead hdata]
    split
    · exact hopen (fuel + 1)
    · exact hopen fuel
  · cases lead with
    | nil =>
      have hrest : p.data = c :: next := (List.cons.inj hdata).2
      have hsame : p = { p with state := 2, data := c :: next } := by rw [← hstate, ← hrest]
      have hloop := hopen (p.data.length + 1)
      rw [← hsame] at hloop
      exact hloop
    | cons b lead =>
      have hb := hlead b List.mem_cons_self
      rw [← (List.cons.inj hdata).1] at hb
      exact absurd hb (by decide)

/-- **A text is read**, up to the tag behind it. -/
theorem XmlParser.Rests.text {l : List Char} (h : p.Rests (escape l ++ 60 :: 47 :: rest))
    (hl : Exchanged l) (hne : l ≠ []) (hhead : ∀ c ∈ l.head?, ¬Blank c) : xmlToken p =
      some (.xmlText, { p with
        content := utf8 l, data := 47 :: rest, state := 2, token := .xmlNone }) := by
  obtain ⟨c, l, rfl⟩ := List.exists_cons_of_ne_nil hne
  obtain ⟨b, bs, hb, hws, hlt⟩ := escapeChar_head (hhead c rfl)
  have hcons : escape (c :: l) ++ 60 :: 47 :: rest =
      b :: (bs ++ (escape l ++ 60 :: 47 :: rest)) := by
    have happend : escape (c :: l) = escapeChar c.toNat ++ escape l := rfl
    rw [happend, hb]
    simp
  rcases h.2 with ⟨hstate, hdata⟩ | ⟨-, hdata⟩
  · have hplane : reencode (c :: l) = some (utf8 (c :: l)) :=
      reencode_iff.2 fun x hx => (hl x hx).2
    have hfuel : (c :: l).length + 2 ≤ p.data.length + 1 := by
      have hlength := length_escape (c :: l)
      rw [hdata, List.length_append]
      simp only [List.length_cons] at hlength ⊢
      omega
    have htext := @tokenLoop_text p.state _ p [] rest _
      (fun x hx => ⟨(hl x hx).1, Or.inl (hl x hx).2⟩) hfuel
    rw [hplane, Option.map_some, List.nil_append] at htext
    have hstart : tokenLoop p.state (p.data.length + 2) p =
        tokenLoop p.state (p.data.length + 1)
          (textAt p [] (escape (c :: l) ++ 60 :: 47 :: rest)) := by
      rw [tokenLoop]
      rw [hcons] at hdata ⊢
      simp only [hstate, hdata, if_neg hlt, hws, Bool.false_eq_true, if_false]
      rfl
    rw [xmlToken, hstart, htext]
    rfl
  · rw [hcons] at hdata
    exact absurd (List.cons.inj hdata).1.symm hlt

end Tags

/-! ## Rows of tokens -/

section Rows
variable {S : Schema} {p : XmlParser} {items : List XmlItem} {rest : CString}

/-- A row of tokens that is read as it is printed: a text is in an element of simple type, and has
no white space in front. -/
inductive PrintedRow (S : Schema) : List XmlItem → Prop
  | nil : PrintedRow S []
  | tag {empty : Bool} {i : ℕ} {attrs : List (CString × CString)} {items : List XmlItem}
      (hall : AttributesRead attrs) (hlength : attrs.length ≤ maxAttribute)
      (hs : PrintedRow S items) : PrintedRow S (.tag empty i attrs :: items)
  | close {i : ℕ} {items : List XmlItem} (hs : PrintedRow S items) :
      PrintedRow S (.close i :: items)
  | text {l : List Char} {i : ℕ} {items : List XmlItem} (hl : Exchanged l) (hne : l ≠ [])
      (hhead : ∀ c ∈ l.head?, ¬Blank c) (hsimple : (S.element i).simple = true)
      (hs : PrintedRow S items) : PrintedRow S (.text (utf8 l) :: .close i :: items)

/-- A tag without attributes leaves those of an earlier tag in the parser, among which a type with
attributes must not find its own: `attr` is what the parser has. -/
def Unmixed (S : Schema) : List (CString × CString) → List XmlItem → Prop
  | _, [] => True
  | attr, .tag _ i attrs :: items =>
    (attrs = [] → (S.element i).simple = false →
      ∀ j, S.AttributeOf ((S.element i).index + 1) j → attrValue attr (S.nameOf j) = none) ∧
    Unmixed S (if attrs = [] then attr else attrs) items
  | attr, .close _ :: items => Unmixed S attr items
  | attr, .text _ :: items => Unmixed S attr items

/-- What the names of a schema must be like for its tags to be read: they are names, each row has
one, and a type has fewer attributes than `MAX_ATTRIBUTE`. -/
structure Schema.Lexical (S : Schema) : Prop where
  names : ∀ s ∈ S.names, IsName s
  globals : S.length ≤ S.names.length
  ids : ∀ id ∈ S.ids, id < S.names.length
  attributes : ∀ i, ((List.range' i (S.entries i).length).filter fun j =>
    (S.element j).isAttribute).length < maxAttribute

/-- Each entry has a name, where there are global elements. -/
theorem Schema.Lexical.name (h : S.Lexical) {type : ℕ} (htype : type < S.length) (i : ℕ) :
    IsName (S.nameOf i) := by
  have hindex : S.seName i < S.names.length := by
    have hglobals := h.globals
    unfold Schema.seName
    split
    · omega
    · rw [List.getD_eq_getElem?_getD]
      cases hget : S.ids[i - S.length]? with
      | none =>
        show 0 < S.names.length
        omega
      | some id => exact h.ids id (List.mem_of_getElem? hget)
  refine h.names _ ?_
  rw [Schema.nameOf, List.getD_eq_getElem _ _ hindex]
  exact List.getElem_mem hindex

theorem lead_blank (pen : Pen) : ∀ b ∈ pen.lead, ws b = true := by
  intro b hb
  unfold Pen.lead at hb
  split at hb
  · exact absurd hb List.not_mem_nil
  · rcases List.mem_cons.1 hb with rfl | hb
    · rfl
    · rw [List.eq_of_mem_replicate hb]
      rfl

variable {pen : Pen} {i : ℕ}

/-- `xml_token` at a tag that opens an element. -/
theorem xmlSource_tag {empty : Bool} {attrs : List (CString × CString)}
    (hnames : ∀ i, IsName (S.nameOf i))
    (hall : AttributesRead attrs) (hlength : attrs.length ≤ maxAttribute)
    (h : p.Rests ((XmlItem.tag empty i attrs).print S pen ++ rest)) :
    ∃ q, xmlSource.token p = ((XmlItem.tag empty i attrs).token, q) ∧ q.name = S.nameOf i ∧
      q.attr = (if attrs = [] then p.attr else attrs) ∧ q.Rests rest := by
  obtain ⟨b, bs, hb, -, hbang, hquestion, -, -⟩ := (hnames i).head
  let text := bs ++ (attrs.flatMap attributeText ++ (if empty then [47, 62] else [62])) ++ rest
  have hname : S.nameOf i ++ (attrs.flatMap attributeText ++ (if empty then [47, 62] else [62])) ++
      rest = b :: text := by rw [hb]; rfl
  have hrests : p.Rests (pen.lead ++ 60 :: b :: text) := by
    rw [← hname]
    simpa [XmlItem.print] using h
  have hmem : 62 ∈ text := by
    refine List.mem_append_left rest (List.mem_append_right bs (List.mem_append_right _ ?_))
    cases empty <;> simp
  have htag := @xmlTag_open _ rest _ empty
    { p with state := 2, data := b :: text } (hnames i) hall hlength
  rw [hname] at htag
  have htoken := hrests.tag (lead_blank pen) hbang hquestion hmem htag
  refine ⟨{ p with
    name := S.nameOf i, attr := if attrs = [] then p.attr else attrs, state := 0, data := rest
    token := if empty then .emptyTag else .startTag }, ?_, rfl, rfl, ?_, Or.inl ⟨rfl, rfl⟩⟩
  · show (xmlToken p).getD _ = _
    rw [htoken]
    rfl
  · cases empty <;> exact TokenType.noConfusion

/-- `xml_token` at a tag that closes an element. -/
theorem xmlSource_close (hnames : ∀ i, IsName (S.nameOf i))
    (h : p.Rests ((XmlItem.close i).print S pen ++ rest)) :
    ∃ q, xmlSource.token p = (.endTag, q) ∧ q.name = S.nameOf i ∧ q.attr = p.attr ∧
      q.Rests rest := by
  let lead := if (S.element i).simple then [] else { pen with indent := pen.indent - 2 }.lead
  have hlead : ∀ b ∈ lead, ws b = true := by
    intro b hb
    unfold lead at hb
    split at hb
    · exact absurd hb List.not_mem_nil
    · exact lead_blank _ b hb
  have hrests : p.Rests (lead ++ 60 :: 47 :: (S.nameOf i ++ 62 :: rest)) := by
    simpa [XmlItem.print, lead] using h
  have htag := @xmlTag_close _ rest
    { p with state := 2, data := 47 :: (S.nameOf i ++ 62 :: rest) } (hnames i)
  have htoken := hrests.tag hlead (by decide) (by decide) (by simp) htag
  refine ⟨{ p with name := S.nameOf i, token := .endTag, state := 0, data := rest }, ?_, rfl, rfl,
    TokenType.noConfusion, Or.inl ⟨rfl, rfl⟩⟩
  show (xmlToken p).getD _ = _
  rw [htoken]
  rfl

/-- **`xml_token` reads the tokens of a row as they are printed.** -/
theorem printItems_tokenize (hnames : ∀ i, IsName (S.nameOf i)) (hrow : PrintedRow S items)
    (hunmixed : Unmixed S p.attr items) (h : p.Rests (printItems S pen items ++ rest)) :
    Tokenizes S xmlSource p items := by
  induction hrow generalizing p pen with
  | nil => exact .nil
  | @tag empty i attrs items hall hlength _ ih =>
    rw [printItems, List.append_assoc] at h
    obtain ⟨q, htoken, hname, hattr, hrests⟩ := xmlSource_tag hnames hall hlength h
    obtain ⟨hown, hrest⟩ := hunmixed
    refine .cons htoken ⟨hname, fun hcomplex j hj => ?_⟩ (ih (by rwa [hattr]) hrests)
    show attrValue q.attr (S.nameOf j) = _
    rw [hattr]
    split
    · rename_i hnone
      rw [hnone, hown hnone hcomplex j hj]
      rfl
    · rfl
  | close _ ih =>
    rw [printItems, List.append_assoc] at h
    obtain ⟨q, htoken, hname, hattr, hrests⟩ := xmlSource_close hnames h
    exact .cons htoken hname (ih (by rw [hattr]; exact hunmixed) hrests)
  | @text l i items hl hne hhead hsimple _ ih =>
    have hclose : (XmlItem.close i).print S pen = 60 :: 47 :: (S.nameOf i ++ [62]) := by
      simp [XmlItem.print, hsimple]
    have htext : p.Rests (escape l ++ 60 :: 47 :: (S.nameOf i ++ [62] ++
        (printItems S ((XmlItem.close i).after S pen) items ++ rest))) := by
      have hprint : (XmlItem.text (utf8 l)).print S pen = escape l := escapedText_exchanged hl
      rw [printItems, printItems, hprint] at h
      have hafter : (XmlItem.text (utf8 l)).after S pen = pen := rfl
      rw [hafter, hclose] at h
      simpa using h
    have htoken : xmlSource.token p = (.xmlText, { p with
        content := utf8 l, state := 2, token := TokenType.xmlNone, data := 47 :: (S.nameOf i ++
          [62] ++ (printItems S ((XmlItem.close i).after S pen) items ++ rest)) }) := by
      show (xmlToken p).getD _ = _
      rw [htext.text hl hne hhead]
      rfl
    have hbehind : ({ p with
        content := utf8 l, state := 2, token := TokenType.xmlNone, data := 47 :: (S.nameOf i ++
          [62] ++ (printItems S ((XmlItem.close i).after S pen) items ++ rest)) } :
            XmlParser).Rests ((XmlItem.close i).print S pen ++
            (printItems S ((XmlItem.close i).after S pen) items ++ rest)) := by
      refine ⟨TokenType.noConfusion, Or.inr ⟨rfl, ?_⟩⟩
      rw [hclose]
      rfl
    obtain ⟨q, htoken', hname, hattr, hrests⟩ := xmlSource_close hnames hbehind
    exact .cons htoken rfl (.cons htoken' hname (ih (by rw [hattr]; exact hunmixed) hrests))

end Rows
end SeClient
