import ScriptFront.Proofs.ByteScan
/-! The spans of a source and the gaps between them. Spans are parts of the source one behind the other,
and each gap is skipped piece by piece. -/
namespace ScriptFront.Token
open Text

/-- A text in front of `following` of which one piece after the other is skipped. -/
inductive Skipped (following : List Char) : List Char → Prop
  | nil : Skipped following []
  | piece : rule.IsTrivia → firstRule? (w ++ (g ++ following)) = some (rule, w.length) →
      Skipped following g → Skipped following (w ++ g)

/-- From `start` to the first span, from one span to the next, and from the last one to `stop`. -/
def gaps (start stop : Nat) (spans : List Span) : List Span :=
  List.zipWith Span.mk (start :: spans.map (·.stop)) (spans.map (·.start) ++ [stop])

def IsGap (source : List Char) (s : Span) : Prop :=
  ∃ g following, slice source s.start s.stop = .ok g ∧ sliceFrom source s.stop = .ok following ∧
    Skipped following g

structure Tiles (source : List Char) (spans : List Span) : Prop where
  nonempty : ∀ s ∈ spans, s.start < s.stop
  inRange : ∀ s ∈ spans, ∃ w, slice source s.start s.stop = .ok w
  ordered : spans.Pairwise fun s t => s.stop ≤ t.start
  gaps : ∀ s ∈ gaps 0 (byteCount source) spans, IsGap source s

section Gaps
variable {rule : Rule} {w g r cs rest : List Char} {ps : List Piece} {start stop : Nat} {s : Span}

theorem Skipped.append (hg : Skipped (w ++ r) g) (hw : Skipped r w) : Skipped r (g ++ w) := by
  induction hg with
  | nil => exact hw
  | piece ht hrule _ ih =>
    rw [List.append_assoc]
    exact .piece ht (by rwa [List.append_assoc]) ih

theorem isTrivia_of_read (h : rule.read w = .skipped) : rule.IsTrivia := by
  have hne (o : Option Token) : Reading.ofToken? o ≠ .skipped := by cases o <;> simp [Reading.ofToken?]
  cases rule with
  | blank | longComment | lineComment => trivial
  | word | longString | operator op => cases h
  | hexadecimal | scientific | decimal | doubleQuoted | singleQuoted => exact absurd h (hne _)

theorem IsFirst.skipped (h : IsFirst (.skipped w) r) : Skipped r w := by
  obtain ⟨rule, hrule, hpiece⟩ := isFirst_iff.1 h
  have ht := isTrivia_of_read (piece?_skipped_iff.1 hpiece)
  simpa [Piece.text] using Skipped.piece (g := []) ht hrule .nil

theorem gaps_cons (spans : List Span) :
    gaps start stop (s :: spans) = ⟨start, s.start⟩ :: gaps s.stop stop spans := rfl

/-- Behind the text `u` and the skipped text `g`, a scan leaves gaps only. -/
theorem Scan.gaps (h : Scan cs ps rest) (u g : List Char) (hg : Skipped cs g)
    (hstop : stop + byteCount rest = byteCount (u ++ (g ++ cs))) :
    ∀ s ∈ Token.gaps (byteCount u) stop
      ((lexemes (byteCount u + byteCount g) ps).map (·.span)), IsGap (u ++ (g ++ cs)) s := by
  induction h generalizing u g with
  | @done rest =>
    have hs : stop = byteCount u + byteCount g := by
      simp only [byteCount_append] at hstop
      omega
    intro s hmem
    obtain rfl : s = ⟨byteCount u, stop⟩ := List.mem_singleton.1 hmem
    refine ⟨g, rest, slice_append rfl hs, ?_, hg⟩
    exact sliceFrom_ok_iff.2 ⟨u ++ g, by simp, by simp [hs]⟩
  | @piece p r ps rest hp hps ih =>
    cases p with
    | skipped w =>
      have htail := ih u (g ++ w) (hg.append hp.skipped) (by simpa [Piece.text] using hstop)
      simpa [lexemes, Piece.text, Nat.add_assoc] using htail
    | lexeme t w =>
      have htail := ih (u ++ (g ++ w)) [] .nil (by simpa [Piece.text] using hstop)
      simp only [lexemes, Piece.text, List.map_cons, gaps_cons]
      refine List.forall_mem_cons.2 ⟨?_, ?_⟩
      · refine ⟨g, w ++ r, slice_append rfl rfl, ?_, hg⟩
        exact sliceFrom_ok_iff.2 ⟨u ++ g, by simp, by simp⟩
      · simpa [Nat.add_assoc] using htail

/-- A lexeme is the part of the source that its span names. -/
theorem Scan.slice_lexeme (h : Scan cs ps rest) (u : List Char) :
    ∀ x ∈ lexemes (byteCount u) ps, byteCount u ≤ x.span.start ∧ x.span.start < x.span.stop ∧
      slice (u ++ cs) x.span.start x.span.stop = .ok x.text.toList := by
  induction h generalizing u with
  | done =>
    intro x hx
    cases hx
  | @piece p r ps rest hp _ ih =>
    have htail := ih (u ++ p.text)
    rw [List.append_assoc, byteCount_append] at htail
    have hpos := byteCount_pos hp.ne_nil
    cases p with
    | skipped w =>
      intro x hx
      obtain ⟨hstart, hx⟩ := htail x hx
      exact ⟨by omega, hx⟩
    | lexeme t w =>
      refine List.forall_mem_cons.2 ⟨⟨Nat.le_refl _, ?_, ?_⟩, ?_⟩
      · simpa [Piece.text] using hpos
      · simpa [Piece.text] using slice_append rfl rfl
      · intro x hx
        obtain ⟨hstart, hx⟩ := htail x hx
        exact ⟨by omega, hx⟩

theorem Scan.ordered (h : Scan cs ps rest) (u : List Char) :
    ((lexemes (byteCount u) ps).map (·.span)).Pairwise fun s t => s.stop ≤ t.start := by
  induction h generalizing u with
  | done => exact .nil
  | @piece p r ps rest _ hps ih =>
    have htail := ih (u ++ p.text)
    rw [byteCount_append] at htail
    cases p with
    | skipped w => exact htail
    | lexeme t w =>
      refine List.pairwise_cons.2 ⟨?_, htail⟩
      intro s hs
      obtain ⟨x, hx, rfl⟩ := List.mem_map.1 hs
      have hle := (hps.slice_lexeme (u ++ w) x (by simpa [Piece.text] using hx)).1
      simpa using hle

theorem Scan.tiles (h : Scan cs ps []) : Tiles cs ((lexemes 0 ps).map (·.span)) where
  nonempty := by
    intro s hs
    obtain ⟨x, hx, rfl⟩ := List.mem_map.1 hs
    exact (h.slice_lexeme [] x hx).2.1
  inRange := by
    intro s hs
    obtain ⟨x, hx, rfl⟩ := List.mem_map.1 hs
    exact ⟨_, (h.slice_lexeme [] x hx).2.2⟩
  ordered := h.ordered []
  gaps := h.gaps [] [] .nil rfl

end Gaps

/-- Scanning by offsets stays in range on every source. It finds the tokens and spans that are read, or
the character that is refused, and the spans that it finds tile the source. -/
theorem scanBytes_tiles (source : String) :
    scanBytes source.toList [] [] 0 =
      .ok ((Lexed.ofString source).map fun l => (l.tokens, l.lexemes.map (·.span))) ∧
    ∀ tokens spans, scanBytes source.toList [] [] 0 = .ok (.ok (tokens, spans)) →
      spans.length = tokens.length ∧ Tiles source.toList spans := by
  refine ⟨scanBytes_eq source.toList, fun tokens spans h => ?_⟩
  rw [scanBytes_eq] at h
  cases hl : Lexed.ofString source with
  | error e =>
    rw [Lexed.ofString] at hl
    rw [hl] at h
    cases h
  | ok l =>
    obtain ⟨ps, hps, rfl⟩ := Lexed.ofString_ok_iff.1 hl
    rw [Lexed.ofString] at hl
    rw [hl] at h
    cases h
    exact ⟨by simp [Lexed.tokens], hps.tiles⟩

/-- `a--[[é]]b` -/
def commentSource : String := "a--[[é]]b"

theorem ofString_commentSource : Lexed.ofString commentSource = .ok ⟨commentSource.toList,
    [⟨.name "a", "a", ⟨0, 1⟩⟩, ⟨.name "b", "b", ⟨9, 10⟩⟩]⟩ := by
  have hfirst : IsFirst (.lexeme (.name "a") ['a'])
      ['-', '-', '[', '[', 'é', ']', ']', 'b'] := by rfl
  have hcomment : IsFirst (.skipped ['-', '-', '[', '[', 'é', ']', ']']) ['b'] := by rfl
  have hlast : IsFirst (.lexeme (.name "b") ['b']) [] := by rfl
  have hscan : Scan commentSource.toList _ [] := .piece hfirst (.piece hcomment (.piece hlast .done))
  exact Lexed.ofString_ok_iff.2 ⟨_, hscan, by rfl⟩

theorem scanBytes_tiles_comment :
    scanBytes commentSource.toList [] [] 0 =
      .ok (.ok ([.name "a", .name "b"], [⟨0, 1⟩, ⟨9, 10⟩])) ∧
    Tiles commentSource.toList [⟨0, 1⟩, ⟨9, 10⟩] := by
  obtain ⟨hscan, htiles⟩ := scanBytes_tiles commentSource
  rw [ofString_commentSource] at hscan
  exact ⟨hscan, (htiles _ _ hscan).2⟩

end ScriptFront.Token

namespace ScriptFront.Lexed
open Text Token

/-- A text that is read as one token. -/
def single (t : Token) (w : List Char) : Lexed := ⟨w, [⟨t, String.ofList w, ⟨0, Text.byteCount w⟩⟩]⟩

theorem ofText_single_iff {t : Token} {w : List Char} :
    ofText w = .ok (single t w) ↔ IsFirst (.lexeme t w) [] := by
  rw [ofText_ok_iff]
  constructor
  · rintro ⟨ps, hscan, he⟩
    have hlexemes : Token.lexemes 0 ps = [⟨t, String.ofList w, ⟨0, Text.byteCount w⟩⟩] :=
      (congrArg lexemes he).symm
    cases hscan with
    | done => cases hlexemes
    | @piece p r ps _ hp hps =>
      cases p with
      | skipped u =>
        rw [Token.lexemes, Nat.zero_add] at hlexemes
        have hstart := (hps.slice_lexeme u _ (hlexemes ▸ List.mem_cons_self)).1
        exact absurd hstart (Nat.not_le_of_lt (byteCount_pos hp.ne_nil))
      | lexeme t' u =>
        obtain ⟨hx, -⟩ := List.cons.inj hlexemes
        obtain ⟨rfl, htext, -⟩ := Lexeme.mk.inj hx
        have hu : u = u ++ r := String.ofList_injective htext
        obtain rfl : r = [] := List.self_eq_append_right.1 hu
        simpa [Piece.text] using hp
  · intro h
    have hscan := Scan.piece h .done
    exact ⟨[.lexeme t w], by simpa [Piece.text] using hscan, by simp [single, Token.lexemes]⟩

end ScriptFront.Lexed
