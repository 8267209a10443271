/-
# The regions that reading covers

A lexer can be read on behind an error.  The regions of the symbols and the errors that it gives, up
to the end of the formula, lie one behind the other and never overlap, and together they cover the
tokens of the formula that are not blank, with one exception: a lone `arc` takes the token behind it
along, and if that token is no name, the error is that of the `arc` alone, and the token lies in no
region at all.  `Lexer.regions_cover` says exactly which tokens are covered, and
`Lexer.regions_arc_add` shows one that is lost.
-/
import SymbolicCalculus.Binary64
import SymbolicCalculus.Proofs.Lexing.Readings

namespace SymbolicCalculus

universe u

variable {ν : Type u}

/-! ## 1. The order of tokens -/

namespace Span

/-- The region ends before the other begins. -/
def Before (a b : Span) : Prop := a.stop ≤ b.start

instance (a b : Span) : Decidable (a.Before b) := inferInstanceAs (Decidable (a.stop ≤ b.start))

/-- The other region is part of the region. -/
def Covers (a b : Span) : Prop := a.start ≤ b.start ∧ b.stop ≤ a.stop

/-- The region is not empty. -/
def IsInhabited (a : Span) : Prop := a.start < a.stop

theorem IsInhabited.not_before {a : Span} (h : a.IsInhabited) : ¬a.Before a := Nat.not_le_of_lt h

theorem Before.asymm {a b : Span} (h : a.Before b) (ha : a.IsInhabited) (hb : b.IsInhabited) :
    ¬b.Before a := by
  simp only [Before, IsInhabited] at *
  omega

/-- What lies behind a region is not covered by it. -/
theorem Before.not_covers {a b : Span} (h : a.Before b) (hb : b.IsInhabited) : ¬a.Covers b := by
  simp only [Before, Covers, IsInhabited] at *
  omega

/-- What lies in front of a region is not covered by it. -/
theorem Before.not_covers' {a b : Span} (h : a.Before b) (ha : a.IsInhabited) : ¬b.Covers a := by
  simp only [Before, Covers, IsInhabited] at *
  omega

end Span

theorem utf8Length_pos {cs : List Char} (h : cs ≠ []) : 0 < utf8Length cs := by
  obtain ⟨c, cs, rfl⟩ := List.exists_cons_of_ne_nil h
  have := c.utf8Size_pos
  rw [utf8Length]
  omega

namespace Token

/-- The tokens of a text are not empty and lie behind its start. -/
theorem span_of_mem_tokenizeFrom {start : Nat} {cs : List Char} {t : Token}
    (h : t ∈ tokenizeFrom start cs) : start ≤ t.span.start ∧ t.span.IsInhabited := by
  induction start, cs using tokenizeFrom.induct with
  | case1 start => exact absurd h (by simp [tokenizeFrom])
  | case2 start c cs stop ih =>
    have hpos := utf8Length_pos (munch_lexeme_ne_nil c cs)
    rw [tokenizeFrom] at h
    rcases List.mem_cons.mp h with rfl | h
    · exact ⟨Nat.le_refl _, Nat.lt_add_of_pos_right hpos⟩
    · have := ih h
      exact ⟨Nat.le_trans (Nat.le_add_right _ _) this.1, this.2⟩

/-- The tokens of a text lie one behind the other. -/
theorem pairwise_tokenizeFrom (start : Nat) (cs : List Char) :
    (tokenizeFrom start cs).Pairwise fun t u => t.span.Before u.span := by
  induction start, cs using tokenizeFrom.induct with
  | case1 start => simp [tokenizeFrom]
  | case2 start c cs stop ih =>
    rw [tokenizeFrom]
    exact List.pairwise_cons.mpr ⟨fun u hu => (span_of_mem_tokenizeFrom hu).1, ih⟩

theorem isInhabited_of_mem_solids (source : String) :
    ∀ t ∈ solids (tokenize source), t.span.IsInhabited := fun _ ht =>
  (span_of_mem_tokenizeFrom (List.mem_of_mem_filter ht)).2

theorem pairwise_solids (source : String) :
    (solids (tokenize source)).Pairwise fun t u => t.span.Before u.span :=
  (pairwise_tokenizeFrom 0 source.toList).filter _

/-! ## 2. The regions of readings -/

/-- The region of a reading.  The token that an `arc` takes along belongs to it only if it is a
name. -/
def Reading.span (r : Reading) : Span :=
  match r.along with
  | some u => if u.kind = .name then r.token.span.through u.span else r.token.span
  | none => r.token.span

/-- Whether a lone `arc` waits behind the tokens for another one, which it does unless an `arc` in
front of it took it along. -/
def arcWaits (ts : List Token) : Bool := ts.foldl (fun waits t => t.isArc && !waits) false

/-- Where an `arc` waits, it is the last token, and none waits in front of it. -/
theorem exists_arc_of_arcWaits {ts : List Token} (h : arcWaits ts = true) :
    ∃ front t, ts = front ++ [t] ∧ t.isArc = true ∧ arcWaits front = false := by
  rcases List.eq_nil_or_concat ts with rfl | ⟨front, t, rfl⟩
  · exact absurd h (by simp [arcWaits])
  · refine ⟨front, t, List.concat_eq_append, ?_⟩
    simpa [arcWaits] using h

/-- Where no `arc` waits, a reading ends. -/
theorem readings_append {ts : List Token} (h : arcWaits ts = false) (us : List Token) :
    readings (ts ++ us) = readings ts ++ readings us := by
  induction ts using readings.induct with
  | case1 => rfl
  | case2 t => exact readings_of_not_isArc (by simpa [arcWaits] using h) us
  | case3 t u ts harc ih =>
    rw [List.cons_append, List.cons_append, readings_of_isArc harc, readings_of_isArc harc,
      ih (by simpa [arcWaits, harc] using h), List.cons_append]
  | case4 t u ts harc ih =>
    have harc : t.isArc = false := by simpa using harc
    rw [List.cons_append, readings_of_not_isArc harc, readings_of_not_isArc harc,
      ih (by simpa [arcWaits, harc] using h), List.cons_append]

/-- A token is lost behind the tokens in front of it if an `arc` takes it along and it is no
name. -/
def IsLost (front : List Token) (t : Token) : Prop := arcWaits front = true ∧ t.kind ≠ .name

section Regions

variable {ts : List Token}

/-- The region of a reading reaches from the start of a token to the end of one. -/
theorem exists_of_mem_readings {r : Reading} (h : r ∈ readings ts) :
    ∃ first ∈ ts, ∃ last ∈ ts, r.span = first.span.through last.span := by
  obtain ⟨htoken, halong⟩ := of_mem_readings h
  unfold Reading.span
  split
  · next u hu =>
    split
    · exact ⟨r.token, htoken, u, halong u hu, rfl⟩
    · exact ⟨r.token, htoken, r.token, htoken, rfl⟩
  · exact ⟨r.token, htoken, r.token, htoken, rfl⟩

/-- What lies behind all tokens of some readings lies behind their regions. -/
theorem before_of_mem_readings {a : Span} (h : ∀ t ∈ ts, a.Before t.span) {r : Reading}
    (hr : r ∈ readings ts) : a.Before r.span := by
  obtain ⟨first, hfirst, last, -, hspan⟩ := exists_of_mem_readings hr
  rw [hspan]
  exact h first hfirst

/-- The region of an `arc` and the token behind it ends where the next tokens begin. -/
theorem before_of_isArc {t u v : Token} (ht : t.span.Before v.span) (hu : u.span.Before v.span) :
    (Reading.span ⟨t, some u⟩).Before v.span := by
  by_cases hname : u.kind = .name
  · simpa [Reading.span, hname, Span.through, Span.Before] using hu
  · simpa [Reading.span, hname] using ht

variable (hinhabited : ∀ t ∈ ts, t.span.IsInhabited)
  (hpairwise : ts.Pairwise fun t u => t.span.Before u.span)

include hinhabited hpairwise

/-- **The regions of readings lie one behind the other.** -/
theorem pairwise_readings :
    (∀ r ∈ readings ts, r.span.IsInhabited) ∧
      (readings ts).Pairwise fun a b => a.span.Before b.span := by
  induction ts using readings.induct with
  | case1 => simp [readings]
  | case2 t => simpa [readings, Reading.span] using hinhabited t
  | case3 t u ts harc ih =>
    obtain ⟨ht, hu, hts⟩ : (t.span.Before u.span ∧ ∀ v ∈ ts, t.span.Before v.span) ∧
        (∀ v ∈ ts, u.span.Before v.span) ∧ ts.Pairwise fun t u => t.span.Before u.span := by
      simpa using hpairwise
    obtain ⟨hspans, hrest⟩ := ih (fun v hv => hinhabited v (by simp [hv])) hts
    rw [readings_of_isArc harc, List.pairwise_cons]
    refine ⟨?_, fun r hr => before_of_mem_readings
      (fun v hv => before_of_isArc (ht.2 v hv) (hu v hv)) hr, hrest⟩
    intro r hr
    rcases List.mem_cons.mp hr with rfl | hr
    · have htpos := hinhabited t List.mem_cons_self
      have hupos := hinhabited u (by simp)
      have htu := ht.1
      simp only [Span.IsInhabited, Span.Before] at htpos hupos htu ⊢
      by_cases hname : u.kind = .name
      · simp only [Reading.span, hname, if_true, Span.through]
        omega
      · simpa only [Reading.span, hname, if_false] using htpos
    · exact hspans r hr
  | case4 t u ts harc ih =>
    obtain ⟨ht, hts⟩ := List.pairwise_cons.mp hpairwise
    obtain ⟨hspans, hrest⟩ := ih (fun v hv => hinhabited v (List.mem_cons_of_mem t hv)) hts
    rw [readings_of_not_isArc (by simpa using harc), List.pairwise_cons]
    refine ⟨?_, fun r hr => before_of_mem_readings ht hr, hrest⟩
    intro r hr
    rcases List.mem_cons.mp hr with rfl | hr
    · exact hinhabited t List.mem_cons_self
    · exact hspans r hr

/-- The first token lies in the region of the first reading. -/
theorem exists_reading_covers_head {t : Token} {us : List Token} (h : ts = t :: us) :
    ∃ r ∈ readings ts, r.span.Covers t.span := by
  subst h
  cases harc : t.isArc with
  | false =>
    rw [readings_of_not_isArc harc]
    exact ⟨_, List.mem_cons_self, Nat.le_refl _, Nat.le_refl _⟩
  | true =>
    cases us with
    | nil => exact ⟨_, List.mem_cons_self, Nat.le_refl _, Nat.le_refl _⟩
    | cons u us =>
      rw [readings_of_isArc harc]
      refine ⟨_, List.mem_cons_self, ?_⟩
      have htu := List.rel_of_pairwise_cons hpairwise List.mem_cons_self
      have hu := hinhabited u (by simp)
      simp only [Span.Before, Span.IsInhabited] at htu hu
      by_cases hname : u.kind = .name
      · simp only [Reading.span, hname, if_true, Span.through, Span.Covers]
        omega
      · simp [Reading.span, hname, Span.Covers]

/-- **The regions of readings cover every token that is not lost, and no other.** -/
theorem readings_cover {front back : List Token} {t : Token} (h : ts = front ++ t :: back) :
    (∃ r ∈ readings ts, r.span.Covers t.span) ↔ ¬IsLost front t := by
  have ht := hinhabited t (by simp [h])
  rw [h] at hpairwise
  obtain ⟨-, hback, hfront⟩ := List.pairwise_append.mp hpairwise
  have hafter : ∀ u ∈ back, t.span.Before u.span := fun u hu => List.rel_of_pairwise_cons hback hu
  cases hwaits : arcWaits front with
  | false =>
    refine iff_of_true ?_ (by simp [IsLost, hwaits])
    obtain ⟨r, hr, hcovers⟩ := exists_reading_covers_head
      (fun u hu => hinhabited u (by rw [h]; exact List.mem_append_right _ hu)) hback rfl
    rw [h, readings_append hwaits]
    exact ⟨r, List.mem_append_right _ hr, hcovers⟩
  | true =>
    obtain ⟨front, x, rfl, harc, hwaits'⟩ := exists_arc_of_arcWaits hwaits
    have hbefore : ∀ u ∈ front ++ [x], u.span.Before t.span := fun u hu =>
      hfront u hu t List.mem_cons_self
    have hx := hbefore x (by simp)
    have hreadings : readings ts = readings front ++ ⟨x, some t⟩ :: readings back := by
      rw [h, List.append_assoc, readings_append hwaits', List.singleton_append,
        readings_of_isArc harc]
    rw [hreadings]
    by_cases hname : t.kind = .name
    · refine iff_of_true ⟨_, List.mem_append_right _ List.mem_cons_self, ?_⟩
        (by simp [IsLost, hname])
      have hxpos := hinhabited x (by simp [h])
      simp only [Span.Before, Span.IsInhabited] at hx hxpos
      simp only [Reading.span, hname, if_true, Span.through, Span.Covers]
      omega
    · refine iff_of_false ?_ (by simp [IsLost, hwaits, hname])
      rintro ⟨r, hr, hcovers⟩
      rcases List.mem_append.mp hr with hr | hr
      · obtain ⟨_, -, last, hlast, hspan⟩ := exists_of_mem_readings hr
        refine Span.Before.not_covers ?_ ht hcovers
        rw [hspan]
        exact hbefore last (List.mem_append_left _ hlast)
      · rcases List.mem_cons.mp hr with rfl | hr
        · exact hx.not_covers ht (by simpa [Reading.span, hname] using hcovers)
        · exact (before_of_mem_readings hafter hr).not_covers' ht hcovers

end Regions

end Token

/-! ## 3. The regions of a formula -/

open Token (Reading readings solids IsLost)

/-- The region of a result; the end of the formula has none. -/
def region? : Except ParseError (Symbol ν) → Option Span
  | .ok s => if s.kind.isEnd then none else some s.span
  | .error err => some err.span

variable [Literal ν]

/-- The region of what a reading gives is that of the reading. -/
theorem Token.region?_read {ts : List Token} (b : Bool) {r : Reading} (h : r ∈ readings ts) :
    region? (r.read b : Except ParseError (Symbol ν)) = some r.span := by
  have hgives := r.gives_read (ν := ν) b
  generalize (r.read b : Except ParseError (Symbol ν)) = result at hgives
  cases hgives with
  | symbol harc hk =>
    obtain rfl := along_eq_none h harc
    simp [region?, Reading.span, SymbolKind.isEnd_of_ofToken? hk]
  | undefined harc hk =>
    obtain rfl := along_eq_none h harc
    rfl
  | joined harc hname hf => simp [region?, Reading.span, hname, SymbolKind.isEnd]
  | joinedUndefined harc hname hnone => simp [region?, Reading.span, hname]
  | @lone t along harc hnone =>
    cases along with
    | none => rfl
    | some u => simp [region?, Reading.span, hnone u rfl, ParseError.undefined]

/-- The regions of a stream of readings are those of the readings. -/
theorem Stream.filterMap_region?_ofReadings (length : Nat) (b : Bool) {rs : List Reading}
    (h : ∀ b, ∀ r ∈ rs, region? (r.read b : Except ParseError (Symbol ν)) = some r.span) :
    (ofReadings length b rs : Stream ν).filterMap region? = rs.map Reading.span := by
  induction rs generalizing b with
  | nil => rfl
  | cons r rs ih =>
    rw [ofReadings, List.filterMap_cons, h b r List.mem_cons_self, List.map_cons,
      ih _ fun b r' hr' => h b r' (List.mem_cons_of_mem r hr')]

namespace Lexer

/-- The regions of the symbols and the errors that reading gives before the end of the formula. -/
def regions (l : Lexer ν) : List Span := l.results.filterMap region?

theorem regions_ofSource (source : String) : (ofSource source : Lexer ν).regions =
    (readings (solids (Token.tokenize source))).map Reading.span := by
  rw [regions, results_ofSource]
  exact Stream.filterMap_region?_ofReadings _ _ fun b r hr => Token.region?_read b hr

/-- The regions of a formula are not empty and lie one behind the other. -/
theorem regions_ordered (source : String) :
    (∀ a ∈ (ofSource source : Lexer ν).regions, a.IsInhabited) ∧
      (ofSource source : Lexer ν).regions.Pairwise Span.Before := by
  obtain ⟨hspans, hordered⟩ :=
    Token.pairwise_readings (Token.isInhabited_of_mem_solids source) (Token.pairwise_solids source)
  rw [regions_ofSource]
  exact ⟨List.forall_mem_map.mpr hspans, List.pairwise_map.mpr hordered⟩

/-- **Reading past errors duplicates nothing, and loses only what a lone `arc` takes along.**  The
regions of the symbols and the errors of a formula are not empty and lie one behind the other, and a
token that is not blank lies in one of them unless a lone `arc` in front of it takes it along, which
is in turn taken along by no other, and it is not a name. -/
theorem regions_cover (source : String) :
    let regions := (ofSource source : Lexer ν).regions
    (∀ a ∈ regions, a.IsInhabited) ∧ regions.Pairwise Span.Before ∧
      ∀ (front : List Token) (t : Token) (back : List Token),
        solids (Token.tokenize source) = front ++ t :: back →
        ((∃ a ∈ regions, a.Covers t.span) ↔ ¬IsLost front t) := by
  obtain ⟨hspans, hordered⟩ := regions_ordered (ν := ν) source
  refine ⟨hspans, hordered, fun front t back h => ?_⟩
  rw [← Token.readings_cover (Token.isInhabited_of_mem_solids source)
    (Token.pairwise_solids source) h, regions_ofSource]
  simp

/-- The plus sign behind a lone `arc` is lost. -/
theorem regions_arc_add :
    ⟨.add, ⟨3, 4⟩, ['+']⟩ ∈ solids (Token.tokenize "arc+1") ∧
      (ofSource "arc+1" : Lexer Float).regions = [⟨0, 3⟩, ⟨4, 5⟩] ∧
      ∀ a ∈ (ofSource "arc+1" : Lexer Float).regions, ¬a.Covers ⟨3, 4⟩ := by
  have hregions : (ofSource "arc+1" : Lexer Float).regions = [⟨0, 3⟩, ⟨4, 5⟩] := by
    decide +kernel
  refine ⟨by decide +kernel, hregions, ?_⟩
  rw [hregions]
  simp [Span.Covers]

end Lexer

end SymbolicCalculus
