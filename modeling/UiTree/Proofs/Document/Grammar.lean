import UiTree.Proofs.Document.AttributeValues
import UiTree.Proofs.Document.Names
import UiTree.Proofs.Document.Reading

/-!
# Well-formed documents

The grammar of XML as far as page source goes: the declaration, and one element with its attributes,
the text and the elements in it. Names, references and characters are those of XML. An element ends
with the name it started with and has no two attributes of one name.

A text with a character that no name can have where the root element has its name is no document.

## Implementation notes

Comments, processing instructions, marked sections and declarations of types are left out. They
start with a question mark or an exclamation mark after the opening bracket.
-/

namespace UiTree

namespace Xml

/-- White space, or nothing. -/
def IsBlank (xs : List Char) : Prop :=
  ∀ c ∈ xs, isSpace c = true

/-- Text between two tags or references. -/
def IsText (xs : List Char) : Prop :=
  (∀ c ∈ xs, c ≠ '<' ∧ c ≠ '&') ∧ ¬ "]]>".toList <:+: xs

/-- What may stand between two quotes: characters that are no markup, and references to
characters. -/
inductive IsValue (quote : Char) : List Char → Prop
  | nil : IsValue quote []
  | char {c : Char} {rest : List Char} (hmarkup : c ≠ '<' ∧ c ≠ '&') (hquote : c ≠ quote)
      (hrest : IsValue quote rest) : IsValue quote (c :: rest)
  | reference {body rest : List Char} {d : Char} (hd : reference? body = some d)
      (hrest : IsValue quote rest) : IsValue quote ('&' :: (body ++ ';' :: rest))

/-- White space, a name, and a quoted value after an equals sign. -/
inductive IsAssigned (value : Char → List Char → Prop) (name : List Char) : List Char → Prop
  | intro {before left right v : List Char} {quote : Char} (hne : before ≠ [])
      (hbefore : IsBlank before) (hleft : IsBlank left) (hright : IsBlank right)
      (hquote : quote = '"' ∨ quote = '\'') (hv : value quote v) :
      IsAssigned value name (before ++ name ++ left ++ '=' :: right ++ quote :: v ++ [quote])

/-- Attributes of different names. -/
inductive AreAttributes : List (List Char) → List Char → Prop
  | nil : AreAttributes [] []
  | cons {name text rest : List Char} {names : List (List Char)} (hname : isName name = true)
      (hnew : name ∉ names) (htext : IsAssigned IsValue name text)
      (hrest : AreAttributes names rest) : AreAttributes (name :: names) (text ++ rest)

mutual

/-- An element is one tag, or it has something between two tags of one name. -/
inductive IsElement : List Char → Prop
  | empty {name attributes blank : List Char} {names : List (List Char)}
      (hname : isName name = true) (hattributes : AreAttributes names attributes)
      (hblank : IsBlank blank) : IsElement ('<' :: name ++ attributes ++ blank ++ ['/', '>'])
  | nested {name attributes blank inside last : List Char} {names : List (List Char)}
      (hname : isName name = true) (hattributes : AreAttributes names attributes)
      (hblank : IsBlank blank) (hinside : IsContent inside) (hlast : IsBlank last) :
      IsElement ('<' :: name ++ attributes ++ blank ++ '>' :: inside ++
        '<' :: '/' :: name ++ last ++ ['>'])

/-- What an element has in it: text, and elements and references with text around them. -/
inductive IsContent : List Char → Prop
  | text {text : List Char} (htext : IsText text) : IsContent text
  | element {text element rest : List Char} (htext : IsText text) (helement : IsElement element)
      (hrest : IsContent rest) : IsContent (text ++ element ++ rest)
  | reference {text body rest : List Char} {d : Char} (htext : IsText text)
      (hd : reference? body = some d) (hrest : IsContent rest) :
      IsContent (text ++ '&' :: (body ++ ';' :: rest))

end

/-- A version of XML 1. -/
def IsVersion (v : List Char) : Prop :=
  ∃ digits, v = '1' :: '.' :: digits ∧ digits ≠ [] ∧ ∀ c ∈ digits, c.isDigit = true

/-- The name of an encoding. -/
def IsEncoding (v : List Char) : Prop :=
  ∃ first rest, v = first :: rest ∧ first.isAlpha = true ∧
    ∀ c ∈ rest, c.isAlphanum = true ∨ c = '.' ∨ c = '_' ∨ c = '-'

/-- The declaration at the beginning of a document. -/
inductive IsDeclaration : List Char → Prop
  | intro {version encoding blank : List Char}
      (hversion : IsAssigned (fun _ => IsVersion) "version".toList version)
      (hencoding : encoding = [] ∨ IsAssigned (fun _ => IsEncoding) "encoding".toList encoding)
      (hblank : IsBlank blank) :
      IsDeclaration ("<?xml".toList ++ version ++ encoding ++ blank ++ ['?', '>'])

/-- A declaration, which may be left out, and one element. -/
inductive IsDocument : List Char → Prop
  | intro {declaration before root after : List Char}
      (hdeclaration : declaration = [] ∨ IsDeclaration declaration) (hbefore : IsBlank before)
      (hroot : IsElement root) (hafter : IsBlank after) :
      IsDocument (declaration ++ before ++ root ++ after)

/-- A well-formed document: a document of characters that XML allows. -/
structure WellFormed (text : String) : Prop where
  chars : ∀ c ∈ text.toList, isChar c = true
  document : IsDocument text.toList

variable {xs ys rest more : List Char} {c d : Char}

/-- A list is taken apart in one way at the first element with a property. -/
theorem append_cons_inj (p : Char → Prop) (hxs : ∀ x ∈ xs, ¬ p x) (hys : ∀ y ∈ ys, ¬ p y)
    (hc : p c) (hd : p d) (h : xs ++ c :: rest = ys ++ d :: more) : xs = ys ∧ rest = more := by
  induction xs generalizing ys with
  | nil =>
      cases ys with
      | nil => exact ⟨rfl, (List.cons.inj h).2⟩
      | cons y ys =>
          rw [List.nil_append, List.cons_append] at h
          obtain ⟨rfl, -⟩ := List.cons.inj h
          exact absurd hc (hys c List.mem_cons_self)
  | cons x xs ih =>
      cases ys with
      | nil =>
          rw [List.nil_append, List.cons_append] at h
          obtain ⟨rfl, -⟩ := List.cons.inj h
          exact absurd hd (hxs x List.mem_cons_self)
      | cons y ys =>
          rw [List.cons_append, List.cons_append] at h
          obtain ⟨rfl, htail⟩ := List.cons.inj h
          rw [List.forall_mem_cons] at hxs hys
          obtain ⟨rfl, hrest⟩ := ih hxs.2 hys.2 htail
          exact ⟨rfl, hrest⟩

theorem isDelimiter_of_isSpace (h : isSpace c = true) : isDelimiter c = true := by
  simp only [isSpace, Bool.or_eq_true, beq_iff_eq] at h
  rcases h with ((rfl | rfl) | rfl) | rfl <;> decide

theorem inRanges_of_isName {name : List Char} (h : isName name = true) :
    ∀ c ∈ name, Text.inRanges nameRanges c.toNat = true := by
  cases name with
  | nil => cases h
  | cons first rest =>
      rw [isName, Bool.and_eq_true, List.all_eq_true] at h
      refine List.forall_mem_cons.mpr ⟨?_, h.2⟩
      rw [nameRanges, Text.inRanges_append, h.1, Bool.true_or]

/-- No delimiter stands in a name. -/
theorem isDelimiter_eq_false_of_isName {name : List Char} (h : isName name = true) :
    ∀ c ∈ name, isDelimiter c = false := by
  have hdelimiters : ∀ c ∈ delimiters, Text.inRanges nameRanges c.toNat = false :=
    Text.forall_mem_of_all (by decide)
  intro c hc
  rw [isDelimiter, List.contains_eq_mem, decide_eq_false_iff_not]
  intro hmem
  have hname := inRanges_of_isName h c hc
  rw [hdelimiters c hmem] at hname
  cases hname

theorem AreAttributes.head {names : List (List Char)} {text : List Char}
    (h : AreAttributes names text) :
    text = [] ∨ ∃ c rest, text = c :: rest ∧ isDelimiter c = true := by
  cases h with
  | nil => exact .inl rfl
  | cons hname hnew htext hrest =>
      obtain ⟨hne, hbefore, -, -, -, -⟩ := htext
      obtain ⟨c, before, rfl⟩ := List.exists_cons_of_ne_nil hne
      exact .inr ⟨c, _, rfl, isDelimiter_of_isSpace (hbefore c List.mem_cons_self)⟩

theorem IsBlank.head (h : IsBlank xs) :
    xs = [] ∨ ∃ c rest, xs = c :: rest ∧ isDelimiter c = true := by
  cases xs with
  | nil => exact .inl rfl
  | cons c rest => exact .inr ⟨c, rest, rfl, isDelimiter_of_isSpace (h c List.mem_cons_self)⟩

theorem exists_append_eq_cons (hxs : xs = [] ∨ ∃ c rest, xs = c :: rest ∧ isDelimiter c = true)
    (hys : ∃ c rest, ys = c :: rest ∧ isDelimiter c = true) :
    ∃ c rest, xs ++ ys = c :: rest ∧ isDelimiter c = true := by
  obtain rfl | ⟨c, rest, rfl, hc⟩ := hxs
  · exact hys
  · exact ⟨c, rest ++ ys, rfl, hc⟩

/-- An element starts with a name, which ends with a delimiter. -/
theorem IsElement.exists_name {element : List Char} (h : IsElement element) :
    ∃ name c rest, element = '<' :: (name ++ c :: rest) ∧ isName name = true ∧
      isDelimiter c = true := by
  cases h with
  | empty hname hattributes hblank =>
      obtain ⟨c, rest, heq, hc⟩ := exists_append_eq_cons hattributes.head
        (exists_append_eq_cons hblank.head ⟨'/', ['>'], rfl, rfl⟩)
      refine ⟨_, c, rest, ?_, hname, hc⟩
      rw [← heq]
      simp
  | @nested name attributes blank inside last names hname hattributes hblank hinside hlast =>
      obtain ⟨c, rest, heq, hc⟩ := exists_append_eq_cons hattributes.head
        (exists_append_eq_cons hblank.head
          ⟨'>', inside ++ '<' :: '/' :: name ++ last ++ ['>'], rfl, rfl⟩)
      refine ⟨name, c, rest, ?_, hname, hc⟩
      rw [← heq]
      simp

theorem IsBlank.not_mem (h : IsBlank xs) (hc : isSpace c = false) : c ∉ xs := by
  intro hmem
  rw [h c hmem] at hc
  cases hc

theorem IsAssigned.not_mem {value : Char → List Char → Prop} {name text : List Char}
    (h : IsAssigned value name text) (hname : '>' ∉ name)
    (hvalue : ∀ quote v, value quote v → '>' ∉ v) : '>' ∉ text := by
  obtain @⟨before, left, right, v, quote, -, hbefore, hleft, hright, hquote, hv⟩ := h
  have hplain : '>' ≠ quote := by
    rcases hquote with rfl | rfl <;> decide
  simp [hbefore.not_mem, hleft.not_mem, hright.not_mem, hname, hvalue quote v hv, hplain, isSpace]

theorem IsVersion.not_mem (h : IsVersion xs) : '>' ∉ xs := by
  obtain ⟨digits, rfl, -, hdigits⟩ := h
  have : '>' ∉ digits := fun hmem => absurd (hdigits '>' hmem) (by decide)
  simp [this]

theorem IsEncoding.not_mem (h : IsEncoding xs) : '>' ∉ xs := by
  obtain ⟨first, rest, rfl, hfirst, hrest⟩ := h
  rw [List.mem_cons, not_or]
  exact ⟨fun heq => absurd (heq ▸ hfirst) (by decide),
    fun hmem => absurd (hrest '>' hmem) (by decide)⟩

/-- A declaration ends with the first bracket that closes. -/
theorem IsDeclaration.exists_end {declaration : List Char} (h : IsDeclaration declaration) :
    ∃ inside, declaration = inside ++ ['>'] ∧ '>' ∉ inside := by
  obtain @⟨version, encoding, blank, hversion, hencoding, hblank⟩ := h
  have hversion' : '>' ∉ version := hversion.not_mem (by decide) fun _ _ => IsVersion.not_mem
  have hencoding' : '>' ∉ encoding := by
    rcases hencoding with rfl | hencoding
    · exact List.not_mem_nil
    · exact hencoding.not_mem (by decide) fun _ _ => IsEncoding.not_mem
  refine ⟨"<?xml".toList ++ version ++ encoding ++ blank ++ ['?'], by simp, ?_⟩
  simp [hversion', hencoding', hblank.not_mem, isSpace]

/-- The name of the root element, as far as the first delimiter, is a name of XML. -/
theorem IsElement.isName_of_append {root before after name : List Char} (hroot : IsElement root)
    (hbefore : IsBlank before) (hxs : '<' ∉ xs) (hname : ∀ x ∈ name, isDelimiter x = false)
    (hc : isDelimiter c = true) (h : xs ++ '<' :: (name ++ c :: rest) = before ++ root ++ after) :
    isName name = true := by
  obtain ⟨name', d, rest', rfl, hname', hd⟩ := hroot.exists_name
  have hnot : ∀ x ∈ before, ¬ x = '<' := fun x hx heq =>
    hbefore.not_mem (c := '<') rfl (heq ▸ hx)
  obtain ⟨-, htail⟩ := append_cons_inj (· = '<') (fun x hx heq => hxs (heq ▸ hx)) hnot rfl rfl
    (h.trans (by rw [List.append_assoc, List.cons_append]))
  rw [List.append_assoc, List.cons_append] at htail
  have hfree : ∀ x ∈ name', ¬ isDelimiter x = true := fun x hx => by
    rw [isDelimiter_eq_false_of_isName hname' x hx]
    decide
  obtain ⟨rfl, -⟩ := append_cons_inj (isDelimiter · = true) (fun x hx => by simp [hname x hx])
    hfree hc hd htail
  exact hname'

/-- After the first line of page source, a document has an element with a name of XML. -/
theorem isName_of_isDocument {name : List Char} (hname : ∀ x ∈ name, isDelimiter x = false)
    (hc : isDelimiter c = true)
    (h : IsDocument (PageSource.prolog.toList ++ '<' :: (name ++ c :: rest))) :
    isName name = true := by
  generalize htext : PageSource.prolog.toList ++ '<' :: (name ++ c :: rest) = text at h
  obtain @⟨declaration, before, root, after, hdeclaration, hbefore, hroot, -⟩ := h
  rcases hdeclaration with rfl | hdeclaration
  · -- Without a declaration the root element would have the name `?xml`.
    have hxml : isName "?xml".toList = true :=
      hroot.isName_of_append hbefore List.not_mem_nil (Text.forall_mem_of_all (by decide)) rfl htext
    exact absurd hxml (by decide)
  · obtain ⟨inside, rfl, hinside⟩ := hdeclaration.exists_end
    have hsplit : PageSource.prolog.toList =
        "<?xml version=\"1.0\" encoding=\"UTF-8\"?".toList ++ ['>', '\n'] := rfl
    rw [hsplit, List.append_assoc, List.append_assoc, List.append_assoc, List.append_assoc] at htext
    obtain ⟨-, htail⟩ := append_cons_inj (· = '>') (Text.forall_mem_of_all (by decide))
      (fun x hx heq => hinside (heq ▸ hx)) rfl rfl htext
    have hrest : ['\n'] ++ '<' :: (name ++ c :: rest) = before ++ root ++ after := by
      rw [List.append_assoc]
      exact htail
    exact hroot.isName_of_append hbefore (by decide) hname hc hrest

end Xml

end UiTree
