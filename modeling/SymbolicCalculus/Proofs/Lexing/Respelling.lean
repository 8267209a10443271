/-
# Texts that are spelled differently

Formulas may be spelled in more than one way: letters in either case, blanks between the tokens, and
blanks between the prefix `arc` and the rest of a name.  An `Edit` keeps a character of a text, in
whatever case, or adds a blank, and `Respells b ts es` says that the edits `es` only respell the
text that is cut into the tokens `ts`.

The solid tokens of a respelled text are those of the text (`Respells.rewritten`), each at the
characters that it was kept from, except that a name may be cut in two behind its prefix `arc`.
-/
import SymbolicCalculus.Proofs.Lexing.Lexeme

namespace SymbolicCalculus

/-! ## 1. Edits -/

/-- An edit of a text. -/
inductive Edit where
  /-- A character stands where another one stood. -/
  | keep (old new : Char)
  /-- A character is added. -/
  | add (new : Char)

namespace Edit

/-- The text before the edits. -/
def old : List Edit → List Char
  | [] => []
  | keep c _ :: es => c :: old es
  | add _ :: es => old es

/-- The text after the edits. -/
def new : List Edit → List Char
  | [] => []
  | keep _ c :: es => c :: new es
  | add c :: es => c :: new es

/-- Every character of a text is kept. -/
def keeps (cs cs' : List Char) : List Edit := List.zipWith keep cs cs'

@[simp] theorem old_append (es es' : List Edit) : old (es ++ es') = old es ++ old es' := by
  induction es with
  | nil => rfl
  | cons e es ih => cases e <;> simp [old, ih]

@[simp] theorem new_append (es es' : List Edit) : new (es ++ es') = new es ++ new es' := by
  induction es with
  | nil => rfl
  | cons e es ih => cases e <;> simp [new, ih]

@[simp] theorem old_map_add (cs : List Char) : old (cs.map add) = [] := by
  induction cs with
  | nil => rfl
  | cons c cs ih => simpa [old] using ih

@[simp] theorem new_map_add (cs : List Char) : new (cs.map add) = cs := by
  induction cs with
  | nil => rfl
  | cons c cs ih => simpa [new] using ih

theorem old_keeps {cs cs' : List Char} (h : cs'.length = cs.length) : old (keeps cs cs') = cs := by
  induction cs generalizing cs' with
  | nil => rfl
  | cons c cs ih =>
    obtain ⟨c', cs', rfl⟩ := List.exists_cons_of_length_eq_add_one h
    exact congrArg (c :: ·) (ih (by simpa using h))

theorem new_keeps {cs cs' : List Char} (h : cs'.length = cs.length) : new (keeps cs cs') = cs' := by
  induction cs generalizing cs' with
  | nil => exact (List.eq_nil_of_length_eq_zero h).symm
  | cons c cs ih =>
    obtain ⟨c', cs', rfl⟩ := List.exists_cons_of_length_eq_add_one h
    exact congrArg (c' :: ·) (ih (by simpa using h))

/-- A position of the text before the edits and one of the text after them stand in front of the
same character. -/
def SameStart (es : List Edit) (m n : Nat) : Prop :=
  ∃ front c c' back, es = front ++ keep c c' :: back ∧
    m = utf8Length (old front) ∧ n = utf8Length (new front)

/-- The positions stand behind the same character. -/
def SameStop (es : List Edit) (m n : Nat) : Prop :=
  ∃ front c c' back, es = front ++ keep c c' :: back ∧
    m = utf8Length (old front) + c.utf8Size ∧ n = utf8Length (new front) + c'.utf8Size

/-- A region of the text before the edits and one of the text after them begin with the same
character and end with the same character. -/
structure SameRegion (es : List Edit) (a b : Span) : Prop where
  start : SameStart es a.start b.start
  stop : SameStop es a.stop b.stop

theorem SameRegion.through {es : List Edit} {a a' b b' : Span} (h : SameRegion es a a')
    (h' : SameRegion es b b') : SameRegion es (a.through b) (a'.through b') :=
  ⟨h.start, h'.stop⟩

section Keeps

variable {es front back : List Edit} {cs cs' : List Char} (hes : es = front ++ keeps cs cs' ++ back)
  (hlength : cs'.length = cs.length) (hne : cs ≠ [])

include hes hlength hne

/-- Kept characters begin at the same one. -/
theorem sameStart_of_keeps : SameStart es (utf8Length (old front)) (utf8Length (new front)) := by
  obtain ⟨c, cs, rfl⟩ := List.exists_cons_of_ne_nil hne
  obtain ⟨c', cs', rfl⟩ := List.exists_cons_of_length_eq_add_one hlength
  exact ⟨front, c, c', keeps cs cs' ++ back, by simp [hes, keeps], rfl, rfl⟩

/-- Kept characters end at the same one. -/
theorem sameStop_of_keeps : SameStop es (utf8Length (old front) + utf8Length cs)
    (utf8Length (new front) + utf8Length cs') := by
  obtain ⟨init, c, rfl⟩ : ∃ init c, cs = init ++ [c] :=
    ⟨_, _, (List.dropLast_append_getLast hne).symm⟩
  have hne' : cs' ≠ [] := List.ne_nil_of_length_pos (by simp [hlength])
  obtain ⟨init', c', rfl⟩ : ∃ init' c', cs' = init' ++ [c'] :=
    ⟨_, _, (List.dropLast_append_getLast hne').symm⟩
  have hinit : init'.length = init.length := by simpa using hlength
  refine ⟨front ++ keeps init init', c, c', back, ?_, ?_, ?_⟩
  · simp [hes, keeps, List.zipWith_append hinit.symm]
  · simp [old_keeps hinit, utf8Length_append, utf8Length, Nat.add_assoc]
  · simp [new_keeps hinit, utf8Length_append, utf8Length, Nat.add_assoc]

end Keeps

end Edit

/-! ## 2. Letters in either case -/

/-- Characters that differ in case only are equal, or letters. -/
theorem eq_or_isAlpha_of_toLower_eq {c c' : Char} (h : c'.toLower = c.toLower) :
    c' = c ∨ c'.isAlpha = true ∧ c.isAlpha = true := by
  have halpha : c'.isAlpha = c.isAlpha := by
    rw [← Char.isAlpha_toLower_eq_isAlpha c', h, Char.isAlpha_toLower_eq_isAlpha]
  cases hc : c.isAlpha with
  | true => exact .inr ⟨halpha.trans hc, rfl⟩
  | false =>
    have hupper : ∀ x : Char, x.isAlpha = false → ¬x.isUpper := fun x hx hu => by
      simp [Char.isAlpha, hu] at hx
    rw [Char.toLower_eq_of_not_isUpper (hupper c' (halpha.trans hc)),
      Char.toLower_eq_of_not_isUpper (hupper c hc)] at h
    exact .inl h

/-- A letter names the same parameter in either case. -/
theorem Param.ofLetter?_toLower (c : Char) : ofLetter? c.toLower = ofLetter? c := by
  simp [ofLetter?]

theorem length_lowercase (cs : List Char) : (lowercase cs).length = cs.length := List.length_map _

/-- A longer name can only be that of a function. -/
theorem SymbolKind.ofName?_of_one_lt {ν : Type*} {cs : List Char} (h : 1 < cs.length) :
    (ofName? cs : Option (SymbolKind ν)) = (Func.ofKeyword? cs).map func := by
  match cs, h with
  | _ :: _ :: _, _ => rfl

section Lowercase

variable {cs cs' : List Char} (h : lowercase cs' = lowercase cs)

include h

theorem length_eq_of_lowercase_eq : cs'.length = cs.length := by
  rw [← length_lowercase cs', h, length_lowercase]

theorem ne_nil_of_lowercase_eq (hne : cs ≠ []) : cs' ≠ [] := by
  rw [← List.length_pos_iff, length_eq_of_lowercase_eq h]
  exact List.length_pos_iff.mpr hne

/-- A text without letters has one spelling. -/
theorem eq_of_lowercase_eq (hcs : ∀ c ∈ cs, c.isAlpha = false) : cs' = cs := by
  induction cs generalizing cs' with
  | nil => exact List.map_eq_nil_iff.mp h
  | cons c cs ih =>
    obtain ⟨c', cs', rfl⟩ := List.exists_cons_of_length_eq_add_one (length_eq_of_lowercase_eq h)
    obtain ⟨hc, hrest⟩ := List.cons.inj h
    rw [ih hrest fun x hx => hcs x (List.mem_cons_of_mem c hx)]
    rcases eq_or_isAlpha_of_toLower_eq hc with rfl | ⟨-, halpha⟩
    · rfl
    · exact absurd halpha (by simp [hcs c List.mem_cons_self])

/-- A word is a word in every spelling. -/
theorem isAlpha_of_lowercase_eq (hcs : ∀ c ∈ cs, c.isAlpha = true) :
    ∀ c ∈ cs', c.isAlpha = true := by
  intro c hc
  have hmem : c.toLower ∈ lowercase cs := h ▸ List.mem_map_of_mem hc
  obtain ⟨d, hd, hdc⟩ := List.mem_map.mp hmem
  rw [← Char.isAlpha_toLower_eq_isAlpha c, ← hdc, Char.isAlpha_toLower_eq_isAlpha]
  exact hcs d hd

/-- A name means the same in every spelling. -/
theorem SymbolKind.ofName?_of_lowercase_eq {ν : Type*} :
    (ofName? cs' : Option (SymbolKind ν)) = ofName? cs := by
  have hlength := length_eq_of_lowercase_eq h
  match cs, cs', hlength with
  | [], [], _ => rfl
  | [c], [c'], _ =>
    have hc : c'.toLower = c.toLower := List.head_eq_of_cons_eq h
    simp only [ofName?]
    rw [← Param.ofLetter?_toLower c', hc, Param.ofLetter?_toLower]
  | _ :: _ :: _, _ :: _ :: _, _ => simp only [ofName?, Func.ofKeyword?, h]

/-- A name suggests the same function in every spelling. -/
theorem Func.suggest?_of_lowercase_eq : suggest? cs' = suggest? cs := by
  have hdistance : distance cs' = distance cs := by
    funext f
    simp only [distance, h]
  simp only [suggest?, hdistance]

end Lowercase

/-! ## 3. Texts that are respelled -/

/-- The edits only respell the text that is cut into the tokens, where `b` says whether a lone `arc`
stands in front of it, blanks aside. -/
inductive Respells : Bool → List Token → List Edit → Prop where
  | done {b : Bool} : Respells b [] []
  /-- A blank is added in front of a token, or at the end. -/
  | blank {b : Bool} {ts : List Token} {c : Char} {es : List Edit}
      (hc : Token.isBlankChar c = true) (h : Respells b ts es) : Respells b ts (.add c :: es)
  /-- The case of letters is changed. -/
  | token {b : Bool} {t : Token} {ts : List Token} {lexeme : List Char} {es : List Edit}
      (hlexeme : lowercase lexeme = lowercase t.lexeme)
      (h : Respells (if t.isBlank then b else t.isArc) ts es) :
      Respells b (t :: ts) (Edit.keeps t.lexeme lexeme ++ es)
  /-- Blanks are added behind the prefix of a longer name that stands behind no lone `arc`. -/
  | split {t : Token} {ts : List Token} {arc more arc' more' blanks : List Char} {es : List Edit}
      (hkind : t.kind = .name) (ht : t.lexeme = arc ++ more) (hmore : more ≠ [])
      (hlower : lowercase arc = ['a', 'r', 'c'])
      (harc' : lowercase arc' = lowercase arc) (hmore' : lowercase more' = lowercase more)
      (hblanks : ∀ c ∈ blanks, Token.isBlankChar c = true) (hne : blanks ≠ [])
      (h : Respells false ts es) :
      Respells false (t :: ts)
        (Edit.keeps arc arc' ++ blanks.map .add ++ Edit.keeps more more' ++ es)

/-- The edits are those of the text that the tokens make up. -/
theorem Respells.old_eq {b : Bool} {ts : List Token} {es : List Edit} (h : Respells b ts es) :
    Edit.old es = (ts.map Token.lexeme).flatten := by
  induction h with
  | done => rfl
  | blank hc h ih => exact ih
  | token hlexeme h ih => simp [Edit.old_keeps (length_eq_of_lowercase_eq hlexeme), ih]
  | split hkind ht hmore hlower harc' hmore' hblanks hne h ih =>
    simp [Edit.old_keeps (length_eq_of_lowercase_eq harc'),
      Edit.old_keeps (length_eq_of_lowercase_eq hmore'), ih, ht]

/-! ## 4. Lexemes of a respelled text -/

/-- The second text begins with a blank, or in either case with the character that the first one
begins with, unless it is empty. -/
def Continues (rest rest' : List Char) : Prop :=
  ∀ x ∈ rest'.head?, Token.isBlankChar x = true ∨ ∃ y ∈ rest.head?, x.toLower = y.toLower

theorem continues_append {cs cs' : List Char} (h : lowercase cs' = lowercase cs) (hne : cs ≠ [])
    (rest rest' : List Char) : Continues (cs ++ rest) (cs' ++ rest') := by
  obtain ⟨c, cs, rfl⟩ := List.exists_cons_of_ne_nil hne
  obtain ⟨c', cs', rfl⟩ := List.exists_cons_of_length_eq_add_one (length_eq_of_lowercase_eq h)
  rintro x ⟨⟩
  exact .inr ⟨c, rfl, List.head_eq_of_cons_eq h⟩

/-- A test that no blank passes, and all letters or none, fails behind a respelled text if it fails
behind the text. -/
theorem Continues.not_head {rest rest' : List Char} (h : Continues rest rest') {p : Char → Bool}
    (hblank : ∀ c, Token.isBlankChar c = true → p c = false)
    (halpha : ∀ c d, c.isAlpha = true → d.isAlpha = true → p c = p d)
    (hrest : ∀ x ∈ rest.head?, p x = false) : ∀ x ∈ rest'.head?, p x = false := by
  intro x hx
  rcases h x hx with hx | ⟨y, hy, hxy⟩
  · exact hblank x hx
  · rcases eq_or_isAlpha_of_toLower_eq hxy with rfl | ⟨hxa, hya⟩
    · exact hrest x hy
    · rw [halpha x y hxa hya]
      exact hrest y hy

namespace Token

theorem isAlpha_of_isBlankChar {c : Char} (h : isBlankChar c = true) : c.isAlpha = false := by
  by_contra halpha
  exact absurd h (by simp [isBlankChar_of_isAlpha (c := c) (by simpa using halpha)])

theorem isDigit_of_isAlpha {c : Char} (h : c.isAlpha = true) : c.isDigit = false := by
  by_contra hdigit
  exact absurd h (by simp [isAlpha_of_isDigit (c := c) (by simpa using hdigit)])

theorem isDigit_of_isBlankChar {c : Char} (h : isBlankChar c = true) : c.isDigit = false := by
  by_contra hdigit
  exact absurd h (by simp [isBlankChar_of_isDigit (c := c) (by simpa using hdigit)])

/-- Only a name has letters. -/
theorem Lexeme.isAlpha_eq_false {kind : Kind} {lexeme rest : List Char}
    (h : Lexeme kind lexeme rest) (hkind : kind ≠ .name) : ∀ x ∈ lexeme, x.isAlpha = false := by
  cases h with
  | blanks hne hcs hrest => exact fun x hx => isAlpha_of_isBlankChar (hcs x hx)
  | word => exact absurd rfl hkind
  | number hne hds hfraction hdigit hpoint =>
    intro x hx
    rcases List.mem_append.mp hx with hx | hx
    · exact isAlpha_of_isDigit (hds x hx)
    · rcases hfraction with rfl | ⟨fs, rfl, hfs⟩
      · exact absurd hx (by simp)
      · rcases List.mem_cons.mp hx with rfl | hx
        · rfl
        · exact isAlpha_of_isDigit (hfs x hx)
  | fraction hne hds hrest =>
    exact List.forall_mem_cons.mpr ⟨rfl, fun x hx => isAlpha_of_isDigit (hds x hx)⟩
  | point hrest => exact List.forall_mem_singleton.mpr rfl
  | sign hc => exact List.forall_mem_singleton.mpr (of_signKind? hc).1
  | other hblank halpha hdigit hpoint hsign => exact List.forall_mem_singleton.mpr halpha

/-- A name is a word, and nothing behind it continues it. -/
theorem Lexeme.isAlpha {lexeme rest : List Char} (h : Lexeme .name lexeme rest) :
    (∀ x ∈ lexeme, x.isAlpha = true) ∧ ∀ x ∈ rest.head?, x.isAlpha = false := by
  generalize hkind : Kind.name = kind at h
  cases h with
  | word hne hcs hrest => exact ⟨hcs, hrest⟩
  | sign hc => exact absurd hkind.symm (of_signKind? hc).2.2
  | _ => exact absurd hkind (by simp)

theorem not_isAlpha_of_continues {rest rest' : List Char} (h : Continues rest rest')
    (hrest : ∀ x ∈ rest.head?, x.isAlpha = false) : ∀ x ∈ rest'.head?, x.isAlpha = false :=
  h.not_head (fun _ => isAlpha_of_isBlankChar) (fun _ _ hc hd => hc.trans hd.symm) hrest

theorem not_isDigit_of_continues {rest rest' : List Char} (h : Continues rest rest')
    (hrest : ∀ x ∈ rest.head?, x.isDigit = false) : ∀ x ∈ rest'.head?, x.isDigit = false :=
  h.not_head (fun _ => isDigit_of_isBlankChar)
    (fun _ _ hc hd => (isDigit_of_isAlpha hc).trans (isDigit_of_isAlpha hd).symm) hrest

theorem ne_point_of_continues {rest rest' : List Char} (h : Continues rest rest')
    (hrest : ∀ x ∈ rest.head?, x ≠ '.') : ∀ x ∈ rest'.head?, x ≠ '.' := by
  have halpha : ∀ c : Char, c.isAlpha = true → (c == '.') = false := fun c hc => by
    rw [beq_eq_false_iff_ne]
    rintro rfl
    exact absurd hc (by decide)
  simp only [← beq_eq_false_iff_ne] at hrest ⊢
  refine h.not_head (p := (· == '.')) (fun c hc => ?_)
    (fun c d hc hd => (halpha c hc).trans (halpha d hd).symm) hrest
  rw [beq_eq_false_iff_ne]
  rintro rfl
  exact absurd hc (by decide)

/-- **A lexeme is a lexeme of the same kind in every spelling**, in front of everything that the
text behind it may be respelled to, unless it is blank. -/
theorem Lexeme.respelled {kind : Kind} {lexeme lexeme' rest rest' : List Char}
    (h : Lexeme kind lexeme rest) (hkind : kind ≠ .whitespace)
    (hlexeme : lowercase lexeme' = lowercase lexeme) (hrest : Continues rest rest') :
    Lexeme kind lexeme' rest' := by
  by_cases hname : kind = .name
  · subst hname
    exact .word (ne_nil_of_lowercase_eq hlexeme h.ne_nil)
      (isAlpha_of_lowercase_eq hlexeme h.isAlpha.1) (not_isAlpha_of_continues hrest h.isAlpha.2)
  · obtain rfl := eq_of_lowercase_eq hlexeme (h.isAlpha_eq_false hname)
    cases h with
    | blanks => exact absurd rfl hkind
    | word => exact absurd rfl hname
    | number hne hds hfraction hdigit hpoint =>
      exact .number hne hds hfraction (not_isDigit_of_continues hrest hdigit)
        fun hnil => ne_point_of_continues hrest (hpoint hnil)
    | fraction hne hds hrest' => exact .fraction hne hds (not_isDigit_of_continues hrest hrest')
    | point hrest' => exact .point (not_isDigit_of_continues hrest hrest')
    | sign hc => exact .sign hc
    | other hblank halpha hdigit hpoint hsign => exact .other hblank halpha hdigit hpoint hsign

/-- A name is two names in front of blanks and what follows it, if it is cut in two by the blanks. -/
theorem Lexeme.cut {arc more arc' more' blanks rest rest' : List Char}
    (h : Lexeme .name (arc ++ more) rest) (harc : arc ≠ []) (hmore : more ≠ [])
    (harc' : lowercase arc' = lowercase arc) (hmore' : lowercase more' = lowercase more)
    (hblanks : ∀ c ∈ blanks, Token.isBlankChar c = true) (hne : blanks ≠ [])
    (hrest : Continues rest rest') :
    Lexeme .name arc' (blanks ++ (more' ++ rest')) ∧ Lexeme .name more' rest' := by
  obtain ⟨hletters, hstop⟩ := h.isAlpha
  constructor
  · refine .word (ne_nil_of_lowercase_eq harc' harc)
      (isAlpha_of_lowercase_eq harc' fun x hx => hletters x (List.mem_append_left more hx)) ?_
    obtain ⟨c, cs, rfl⟩ := List.exists_cons_of_ne_nil hne
    rintro x ⟨⟩
    exact isAlpha_of_isBlankChar (hblanks c List.mem_cons_self)
  · exact .word (ne_nil_of_lowercase_eq hmore' hmore)
      (isAlpha_of_lowercase_eq hmore' fun x hx => hletters x (List.mem_append_right arc hx))
      (not_isAlpha_of_continues hrest hstop)

end Token

/-! ## 5. Tokens of a respelled text -/

/-- The tokens are the same, at the same characters, but for the case of letters. -/
structure SameToken (es : List Edit) (t u : Token) : Prop where
  kind : u.kind = t.kind
  lexeme : lowercase u.lexeme = lowercase t.lexeme
  lexeme_eq : t.kind ≠ .name → u.lexeme = t.lexeme
  span : Edit.SameRegion es t.span u.span

/-- The solid tokens of a text and those of the edited text, where `b` says whether a lone `arc`
stands in front of them. -/
inductive Rewritten (es : List Edit) : Bool → List Token → List Token → Prop where
  | nil {b : Bool} : Rewritten es b [] []
  | token {b : Bool} {t u : Token} {ts us : List Token} (h : SameToken es t u)
      (hrest : Rewritten es t.isArc ts us) : Rewritten es b (t :: ts) (u :: us)
  /-- A name is cut in two behind its prefix. -/
  | split {t u v : Token} {ts us : List Token} (ht : t.kind = .name) (hu : u.isArc = true)
      (hv : v.kind = .name) (hne : v.lexeme ≠ [])
      (hlexeme : lowercase (u.lexeme ++ v.lexeme) = lowercase t.lexeme)
      (hspan : Edit.SameRegion es t.span (u.span.through v.span))
      (hrest : Rewritten es false ts us) : Rewritten es false (t :: ts) (u :: v :: us)

namespace Respells

open Token (tokenizeFrom solids Lexeme)

/-- A respelled text begins as the text does, or with a blank. -/
theorem continues {b : Bool} {start : Nat} {cs : List Char} {es : List Edit}
    (h : Respells b (tokenizeFrom start cs) es) : Continues cs (Edit.new es) := by
  generalize hts : tokenizeFrom start cs = ts at h
  cases h with
  | done => exact nofun
  | blank hc h =>
    rintro x ⟨⟩
    exact .inl hc
  | token hlexeme h =>
    obtain ⟨rest, rfl, hlex, -⟩ := Token.exists_of_tokenizeFrom hts
    rw [Edit.new_append, Edit.new_keeps (length_eq_of_lowercase_eq hlexeme)]
    exact continues_append hlexeme hlex.ne_nil _ _
  | split hkind ht hmore hlower harc' hmore' hblanks hne h =>
    obtain ⟨rest, rfl, -⟩ := Token.exists_of_tokenizeFrom hts
    simp only [Edit.new_append, Edit.new_keeps (length_eq_of_lowercase_eq harc'), ht,
      List.append_assoc]
    refine continues_append harc' ?_ _ _
    rintro rfl
    exact absurd hlower (by simp [lowercase])

/-- **The solid tokens of a respelled text are those of the text**, but for names that are cut in
two. -/
theorem rewritten {b : Bool} {start : Nat} {cs : List Char} {es front whole : List Edit}
    (h : Respells b (tokenizeFrom start cs) es) (hwhole : whole = front ++ es)
    (hstart : start = utf8Length (Edit.old front)) :
    Rewritten whole b (solids (tokenizeFrom start cs))
      (solids (tokenizeFrom (utf8Length (Edit.new front)) (Edit.new es))) := by
  generalize hts : tokenizeFrom start cs = ts at h
  induction h generalizing front start cs with
  | done =>
    simp only [Edit.new, tokenizeFrom]
    exact .nil
  | @blank b ts c es hc h ih =>
    have hsolids := Token.solids_tokenizeFrom_blanks (List.forall_mem_singleton.mpr hc)
      (utf8Length (Edit.new front)) (Edit.new es)
    have hwhole' : whole = front ++ [.add c] ++ es := by simpa using hwhole
    have := ih hwhole' (by simpa [Edit.old] using hstart) hts
    rw [Edit.new, ← List.singleton_append, hsolids]
    simpa [Edit.new, utf8Length_append] using this
  | @token b t ts lexeme es hlexeme h ih =>
    obtain ⟨rest, rfl, hlex, hspan, rfl⟩ := Token.exists_of_tokenizeFrom hts
    have hlength := length_eq_of_lowercase_eq hlexeme
    have hwhole' : whole = front ++ Edit.keeps t.lexeme lexeme ++ es := by
      rw [hwhole, List.append_assoc]
    have hrest := ih hwhole' (by rw [Edit.old_append, Edit.old_keeps hlength, utf8Length_append,
      ← hstart]) rfl
    rw [Edit.new_append, Edit.new_keeps hlength, utf8Length_append] at hrest
    rw [Edit.new_append, Edit.new_keeps hlength]
    cases hblank : t.isBlank with
    | true =>
      rw [hblank, if_pos rfl] at hrest
      have hkind : t.kind = .whitespace := by simpa [Token.isBlank] using hblank
      have hsame : lexeme = t.lexeme :=
        eq_of_lowercase_eq hlexeme (hlex.isAlpha_eq_false (by simp [hkind]))
      rw [hkind] at hlex
      rw [Token.solids_cons_of_isBlank hblank,
        Token.solids_tokenizeFrom_blanks (hsame ▸ hlex.isBlankChar)]
      exact hrest
    | false =>
      rw [hblank] at hrest
      have hkind : t.kind ≠ .whitespace := by simpa [Token.isBlank] using hblank
      have hlex' := hlex.respelled hkind hlexeme h.continues
      rw [Token.solids_cons_of_not_isBlank hblank, hlex'.solids_tokenizeFrom_append hkind]
      refine .token ⟨rfl, hlexeme, fun hname => ?_, ?_⟩ hrest
      · exact eq_of_lowercase_eq hlexeme (hlex.isAlpha_eq_false hname)
      · rw [hspan, hstart]
        exact ⟨Edit.sameStart_of_keeps hwhole' hlength hlex.ne_nil,
          Edit.sameStop_of_keeps hwhole' hlength hlex.ne_nil⟩
  | @split t ts arc more arc' more' blanks es hkind ht hmore hlower harc' hmore' hblanks hne h
    ih =>
    obtain ⟨rest, rfl, hlex, hspan, rfl⟩ := Token.exists_of_tokenizeFrom hts
    have hlengtharc := length_eq_of_lowercase_eq harc'
    have hlengthmore := length_eq_of_lowercase_eq hmore'
    have harcne : arc ≠ [] := by
      rintro rfl
      exact absurd hlower (by simp [lowercase])
    rw [hkind, ht] at hlex
    obtain ⟨harc, hmore''⟩ := hlex.cut harcne hmore harc' hmore' hblanks hne h.continues
    have hwholearc : whole = front ++ Edit.keeps arc arc' ++
        (blanks.map .add ++ Edit.keeps more more' ++ es) := by simpa using hwhole
    have hwholemore : whole = front ++ Edit.keeps arc arc' ++ blanks.map .add ++
        Edit.keeps more more' ++ es := by simpa using hwhole
    have hnew : Edit.new (Edit.keeps arc arc' ++ blanks.map .add ++ Edit.keeps more more' ++ es) =
        arc' ++ (blanks ++ (more' ++ Edit.new es)) := by
      simp [Edit.new_keeps hlengtharc, Edit.new_keeps hlengthmore]
    have hrest := ih hwholemore (by simp [Edit.old_keeps hlengtharc, Edit.old_keeps hlengthmore,
      ht, hstart, utf8Length_append]) rfl
    rw [Token.solids_cons_of_not_isBlank (by simp [Token.isBlank, hkind]), hnew,
      harc.solids_tokenizeFrom_append (by decide), Token.solids_tokenizeFrom_blanks hblanks,
      hmore''.solids_tokenizeFrom_append (by decide)]
    refine .split hkind ?_ rfl hmore''.ne_nil ?_ ?_ ?_
    · simp [Token.isArc, harc', hlower]
    · simp only [ht, lowercase, List.map_append] at harc' hmore' ⊢
      rw [harc', hmore']
    · rw [hspan, hstart]
      refine ⟨Edit.sameStart_of_keeps hwholearc hlengtharc harcne, ?_⟩
      have := Edit.sameStop_of_keeps hwholemore hlengthmore hmore
      simpa [Edit.old_keeps hlengtharc, Edit.new_keeps hlengtharc, utf8Length_append,
        Nat.add_assoc, ht, Span.through] using this
    · simpa [Edit.new_keeps hlengtharc, Edit.new_keeps hlengthmore, utf8Length_append,
        Nat.add_assoc] using hrest

end Respells

end SymbolicCalculus
