import ScriptFront.Proofs.Collected
import ScriptFront.Proofs.TypeText
/-! Reading the text of a type as an annotation. Its pieces spell an annotation whose type it is, so it
is read back whenever it is read piece by piece. -/
namespace ScriptFront
open Syntax

namespace Program.Ty
open Token Text

/-- An annotation of the type. -/
def written (d : Declared) : Ty → TypeExpr
  | any => .name 0 anyName
  | optional t => .optional 0 (t.written d)
  | array t => .array 0 (t.written d)
  | dictionary k v => .dictionary 0 (k.written d) (v.written d)
  | ofProtocol i | ofClass i | ofEnum i => .name 0 (d.nameOf i)
  | metaClass i | metaProtocol i => .member 0 (d.nameOf i) metaName

/-- Objects are declared and of the kind that the type says. -/
def Proper (d : Declared) : Ty → Prop
  | any => True
  | optional t | array t => t.Proper d
  | dictionary k v => k.Proper d ∧ v.Proper d
  | ofProtocol i => i < d.objects.length ∧ d.objectType i = .ofProtocol i
  | ofClass i => i < d.objects.length ∧ d.objectType i = .ofClass i
  | ofEnum i => i < d.objects.length ∧ d.objectType i = .ofEnum i
  | metaClass i => i < d.objects.length ∧ d.objectType i = .ofClass i
  | metaProtocol i => i < d.objects.length ∧ d.objectType i = .ofProtocol i

section Annotation
variable {d : Declared} {t : Ty} {i : ObjectId} {n : String} {expanding : List String}

theorem proper_objectType (hi : i < d.objects.length) : (d.objectType i).Proper d := by
  cases h : d.objectType i with
  | ofProtocol j | ofClass j | ofEnum j =>
    have hj : j = i := by
      unfold Declared.objectType at h
      split at h
      · cases h <;> rfl
      · split at h <;> cases h <;> rfl
    exact ⟨hj ▸ hi, hj ▸ h⟩
  | _ =>
    unfold Declared.objectType at h
    split at h
    · cases h
    · split at h <;> cases h

theorem invariant_proper (d : Declared) : d.Invariant (·.Proper d) where
  plain h := by
    unfold Declared.plainType at h
    split at h
    · next id hid =>
      cases h
      exact proper_objectType (Declared.find?_lt hid)
    · split at h
      · cases h
        trivial
      · cases h
  metaType ht h := by
    unfold Program.metaType at h
    split at h
    · cases h
      exact ht
    · cases h
      exact ht
    · cases h
  optional h := h
  array h := h
  dictionary hk hv := ⟨hk, hv⟩

/-- The pieces of a type spell its annotation. -/
theorem tokens_pieces (hn : ∀ i < d.objects.length, IsName (d.nameOf i))
    (ht : t.Below d.objects.length) :
    ((t.pieces d).filterMap Piece.lexeme?).map (·.1) = (t.written d).spelling := by
  have hword {n : String} (h : IsName n) :
      (wordPiece n).lexeme? = some (.name n, n.toList) := by
    rw [wordPiece, ofWord_of_isName h, Piece.lexeme?]
  have hoperator (op : Operator) :
      (operatorPiece op).lexeme? = some (.operator op, op.symbol) := rfl
  have hspace : (Piece.skipped [' ']).lexeme? = none := rfl
  induction t with
  | any => simp [pieces, written, TypeExpr.spelling, hword isName_any]
  | ofProtocol i | ofClass i | ofEnum i =>
    simp [pieces, written, TypeExpr.spelling, hword (hn i ht)]
  | metaClass i | metaProtocol i =>
    simp [pieces, written, TypeExpr.spelling, hword (hn i ht), hword isName_metaName, hoperator]
  | optional t ih => simp [pieces, written, TypeExpr.spelling, ← ih ht, hoperator]
  | array t ih => simp [pieces, written, TypeExpr.spelling, ← ih ht, hoperator]
  | dictionary k v ihk ihv =>
    simp [pieces, written, TypeExpr.spelling, ← ihk ht.1, ← ihv ht.2, hoperator, hspace]

theorem expandName_nameOf (hd : d.Distinct) (hi : i < d.objects.length) (j : TokenIndex) :
    expandName d expanding j (d.nameOf i) = .ok (d.objectType i) := by
  rw [expandName_plain (hd.typeAlias?_nameOf hi), Declared.plainType, hd.find?_nameOf hi]

theorem expandName_any (hd : d.Distinct) (j : TokenIndex) :
    expandName d expanding j anyName = .ok .any := by
  rw [expandName_plain hd.any.2, Declared.plainType, hd.any.1]
  rfl

/-- A type is what its annotation stands for, wherever that is placed. -/
theorem expand_written (hd : d.Distinct) (ht : t.Proper d) (m : TokenIndex) :
    expand d expanding ((t.written d).place m) = .ok t := by
  induction t generalizing m with
  | any => simp only [written, TypeExpr.place, expand, expandName_any hd]
  | ofProtocol i | ofClass i | ofEnum i =>
    simp only [written, TypeExpr.place, expand, expandName_nameOf hd ht.1, ht.2]
  | metaClass i | metaProtocol i =>
    simp only [written, TypeExpr.place, expand, expandName_nameOf hd ht.1, ht.2]
    rfl
  | optional t ih =>
    simp only [written, TypeExpr.place, expand, ih ht]
    rfl
  | array t ih =>
    simp only [written, TypeExpr.place, expand, ih ht]
    rfl
  | dictionary k v ihk ihv =>
    simp only [written, TypeExpr.place, expand, ihk ht.1, ihv ht.2]
    rfl

end Annotation
end Program.Ty

namespace Phrase
open Phrase.Stream

/-- The tokens of a lone alias declaration. -/
def aliasTokens (name : String) (type : TypeExpr) : List Token :=
  .keyword .typealias_ :: .name name :: .operator .equal :: type.spelling

theorem chunk_aliasTokens (name : String) (type : TypeExpr) :
    chunk (aliasTokens name type) = .ok [.typeAlias ⟨1, name, type.place 3⟩] := by
  have hafter : After type.spelling ⟨3, type.spelling⟩ ⟨3 + type.spelling.length, []⟩ :=
    ⟨by simp, rfl⟩
  have hread : Reading.Annotation ⟨3, type.spelling⟩ (type.place 3) ⟨3 + type.spelling.length, []⟩ :=
    typeExpr_yields_iff.2 ⟨by rwa [spelling_place], place_place 3 3 type, stops_nil⟩
  refine accepts_items (.declaration (.typeAlias hread) (.done ?_))
  rw [semicolons_of_stops stops_nil]

/-- Nothing but semicolons is left where nothing is after them. -/
theorem left_of_semicolons {s : Stream} (h : (semicolons s).rest.left = []) :
    ∀ u ∈ s.left, u = .operator .semicolon := by
  obtain ⟨n, ts⟩ := s
  induction ts generalizing n with
  | nil => simp
  | cons u ts ih =>
    by_cases hu : u = .operator .semicolon
    · subst hu
      rw [semicolons_cons] at h
      exact List.forall_mem_cons.2 ⟨rfl, ih _ h⟩
    · rw [semicolons_of_stops (stops_cons.2 hu)] at h
      cases h

theorem spelling_not_string (type : TypeExpr) (w : String) : .string w ∉ type.spelling := by
  induction type with
  | name | member => simp [TypeExpr.spelling]
  | optional i t ih => simpa [TypeExpr.spelling] using ih
  | array i t ih => simpa [TypeExpr.spelling] using ih
  | dictionary i k v ihk ihv => simpa [TypeExpr.spelling] using ⟨ihk, ihv⟩

/-- No string is read in an alias declaration. -/
theorem not_string_of_chunk {ts : List Token} {a : AliasDecl} (h : chunk ts = .ok [.typeAlias a])
    (w : String) : .string w ∉ ts := by
  have hitems : Reading.Items false ⟨0, ts⟩ [.typeAlias a] := reads_items h
  cases hitems with
  | declaration hdecl hrest =>
    cases hdecl with
    | typeAlias hread =>
      obtain ⟨⟨hleft, -⟩, -⟩ := typeExpr_yields_iff.1 hread
      cases hrest with
      | done hdone =>
        intro hw
        simp only at hleft
        simp only [List.mem_cons, reduceCtorEq, false_or, hleft, List.mem_append] at hw
        rcases hw with hw | hw
        · exact spelling_not_string _ w hw
        · cases left_of_semicolons hdone _ hw

end Phrase

/-- The chunk is read from a source text. -/
def Syntax.Chunk.IsSource (c : Chunk) : Prop :=
  ∃ source l, Lexed.ofString source = .ok l ∧ Phrase.chunk l.tokens = .ok c

namespace Lexed
open Token

theorem rule_of_name {rule : Rule} {w : List Char} {n : String}
    (h : rule.read w = .token (.name n)) : rule = .word := by
  cases rule with
  | word => rfl
  | blank | longComment | lineComment | longString | operator op => cases h
  | hexadecimal | scientific | decimal | doubleQuoted | singleQuoted =>
    obtain ⟨_, -, he⟩ := Option.map_eq_some_iff.1 (ofToken?_token.1 h)
    cases he

theorem isName_of_mem_tokens {source n : String} {l : Lexed} (h : ofString source = .ok l)
    (hn : .name n ∈ l.tokens) : IsName n := by
  obtain ⟨ps, hps, rfl⟩ := ofString_ok_iff.1 h
  rw [tokens_lexemes] at hn
  obtain ⟨⟨t, w⟩, hmem, rfl⟩ := List.mem_map.1 hn
  obtain ⟨halone, hname, hkeyword⟩ := hps.reads hmem
  obtain ⟨rule, hrule, hread⟩ := isFirst_lexeme_iff.1 (halone [] stops_nil)
  have htakes := (firstRule?_append_iff.1 hrule).1
  obtain rfl := rule_of_name hread
  rw [hname]
  exact ⟨by rwa [String.toList_ofList], hkeyword⟩

end Lexed

namespace Program
open Token Text

variable {chunks : List Chunk} {d : Declared} {p : Program} {t : Ty}

theorem isName_nameOf (hc : ∀ c ∈ chunks, c.IsSource) (hd : Declared.ofChunks chunks = .ok d) :
    ∀ i < d.objects.length, IsName (d.nameOf i) := by
  intro i hi
  obtain ⟨c, hmem, ho⟩ := Declared.object_of_ofChunks hd (List.getElem_mem hi)
  obtain ⟨source, l, hl, hchunk⟩ := hc c hmem
  rw [Declared.nameOf_eq hi]
  exact Lexed.isName_of_mem_tokens hl (Phrase.name_mem_of_items hchunk ho)

/-- The text is read as one alias declaration, and whatever else the program has been asked for, the
alias stands for `t`. -/
def ReadsBack (p : Program) (text : String) (t : Ty) : Prop :=
  ∃ l a, Lexed.ofString ("typealias T = " ++ text) = .ok l ∧
    Phrase.chunk l.tokens = .ok [.typeAlias ⟨1, "T", a⟩] ∧
    ∀ q, p.Reaches q → (q.resolveType a).1 = .ok t

/-- What stands before the text. -/
def headPieces : List Piece :=
  [wordPiece "typealias", .skipped [' '], wordPiece "T", .skipped [' '], operatorPiece .equal,
    .skipped [' ']]

theorem toList_aliasText (text : String) : ("typealias T = " ++ text).toList =
    "typealias".toList ++ ' ' :: ("T".toList ++ ' ' :: '=' :: ' ' :: text.toList) := by
  simp

theorem scan_head {r : List Char} (hr : Stops (isBlank ·) r) :
    Scan ("typealias".toList ++ ' ' :: ("T".toList ++ ' ' :: '=' :: ' ' :: r)) headPieces r := by
  have htypealias : IsWordText "typealias".toList :=
    ⟨'t', ['y', 'p', 'e', 'a', 'l', 'i', 'a', 's'], by rfl, by decide,
      List.all_eq_true.1 (by decide)⟩
  have hT : IsWordText "T".toList := ⟨'T', [], by rfl, by decide, List.forall_mem_nil _⟩
  exact .piece (isFirst_word htypealias (stops_cons.2 (by decide)))
    (.piece (isFirst_space (stops_cons.2 (by decide)))
      (.piece (isFirst_word hT (stops_cons.2 (by decide)))
        (.piece (isFirst_space (stops_cons.2 (by decide)))
          (.piece (isFirst_equal (stops_cons.2 (by decide))) (.piece (isFirst_space hr) .done)))))

theorem tokens_headPieces : (headPieces.filterMap Piece.lexeme?).map (·.1) =
    [.keyword .typealias_, .name "T", .operator .equal] := by rfl

section Texts
variable (hn : ∀ i < p.declared.objects.length, IsName (p.declared.nameOf i))
  (hb : t.Below p.declared.objects.length)
include hn hb

theorem readsBack_of_not_hasLongBracket (hs : p.expanded.Sound p.declared)
    (hd : p.declared.Distinct) (ht : t.Proper p.declared)
    (h : ¬ HasLongBracket (t.display p.declared).toList) :
    p.ReadsBack (t.display p.declared) t := by
  have hscan := (scan_head (Ty.stops_blank_display hn hb)).append
    (Ty.scan_display hn hb stops_nil (by simpa using h))
  rw [List.append_nil, ← toList_aliasText] at hscan
  obtain ⟨l, hl, htokens, -⟩ := Lexed.ofString_of_scan hscan rfl
  have htokens' : l.tokens = Phrase.aliasTokens "T" (t.written p.declared) := by
    rw [htokens, List.filterMap_append, List.map_append, tokens_headPieces, Ty.tokens_pieces hn hb]
    rfl
  refine ⟨l, (t.written p.declared).place 3, hl, ?_, fun q hq => ?_⟩
  · rw [htokens']
    exact Phrase.chunk_aliasTokens "T" _
  · obtain ⟨hs', hd', -⟩ := hq.same hs
    rw [(resolveType_eq hs' _).1, hd']
    exact Ty.expand_written hd ht 3

theorem not_hasLongBracket_of_readsBack (h : p.ReadsBack (t.display p.declared) t) :
    ¬ HasLongBracket (t.display p.declared).toList := by
  obtain ⟨l, a, hl, hchunk, -⟩ := h
  obtain ⟨ps, hps, rfl⟩ := Lexed.ofString_ok_iff.1 hl
  have hdash : '-' ∉ ("typealias T = " ++ t.display p.declared).toList := by
    simpa using Ty.dash_not_mem_display hn hb
  have hstring : ∀ q ∈ ps, ∀ w, q ≠ .lexeme (.string w) q.text := by
    intro q hq w he
    refine Phrase.not_string_of_chunk hchunk w ?_
    rw [Lexed.tokens_lexemes]
    refine List.mem_map.2 ⟨(.string w, q.text), List.mem_filterMap.2 ⟨q, hq, ?_⟩, rfl⟩
    rw [he, Piece.lexeme?]
    rfl
  intro hlong
  refine not_hasLongBracket_of_scan hps hdash hstring ?_
  simpa using hlong.after "typealias T = ".toList

end Texts

/-- A type is read back from its own text exactly if the text has no long bracket. -/
theorem display_readsBack_iff (hc : ∀ c ∈ chunks, c.IsSource) (hp : Program.ofChunks chunks = .ok p)
    (ht : p.Gives t) :
    p.ReadsBack (t.display p.declared) t ↔ ¬ HasLongBracket (t.display p.declared).toList := by
  obtain ⟨hd, -, -, hs⟩ := ofChunks_ok hp
  obtain ⟨a, ha⟩ := (gives_iff hs).1 ht
  have hn := isName_nameOf hc hd
  have hb := below_expand ha
  constructor
  · exact not_hasLongBracket_of_readsBack hn hb
  · exact readsBack_of_not_hasLongBracket hn hb hs (Declared.distinct_ofChunks hd)
      ((Ty.invariant_proper p.declared).expand ha)

/-- `class A end` -/
def classChunk : Chunk := [.object (.ofClass ⟨1, "A", [], []⟩)]

def classProgram : Program :=
  ⟨⟨[.ofClass ⟨1, "A", [], []⟩], []⟩, [⟨.resolved, none, []⟩], [], [[]]⟩

theorem isSource_classChunk : classChunk.IsSource := by
  have hkeyword : IsFirst (.lexeme (.keyword .class_) ['c', 'l', 'a', 's', 's'])
      [' ', 'A', ' ', 'e', 'n', 'd'] := by rfl
  have hname : IsFirst (.lexeme (.name "A") ['A']) [' ', 'e', 'n', 'd'] := by rfl
  have hend : IsFirst (.lexeme (.keyword .end_) ['e', 'n', 'd']) [] := by rfl
  have hscan : Scan "class A end".toList _ [] := .piece hkeyword
    (.piece (isFirst_space (stops_cons.2 (by decide)))
      (.piece hname (.piece (isFirst_space (stops_cons.2 (by decide))) (.piece hend .done))))
  obtain ⟨l, hl, htokens, -⟩ := Lexed.ofString_of_scan hscan rfl
  have htokens' : l.tokens = [.keyword .class_, .name "A", .keyword .end_] := htokens
  refine ⟨"class A end", l, hl, ?_⟩
  rw [htokens']
  refine Phrase.accepts_items (.declaration
    (.ofClass (.none (Phrase.Stream.stops_cons.2 (by simp))) .none) (.done ?_))
  rw [Phrase.semicolons_of_stops Phrase.Stream.stops_nil]

theorem ofChunks_class : Program.ofChunks [classChunk] = .ok classProgram := by
  have hd : Declared.ofChunks [classChunk] = .ok classProgram.declared := by rfl
  have ha : Arena.ofDeclared classProgram.declared = .ok classProgram.arena := by
    rw [ofDeclared_eq_within]
    rfl
  rw [Program.ofChunks, hd, Phrase.ok_bind, ha, Phrase.ok_bind]
  rfl

theorem display_readsBack_class :
    (∀ c ∈ [classChunk], c.IsSource) ∧ Program.ofChunks [classChunk] = .ok classProgram ∧
      classProgram.Gives (.dictionary (.metaClass 0) (.array (.ofClass 0))) ∧
      classProgram.ReadsBack "[A.Type: [A]]" (.dictionary (.metaClass 0) (.array (.ofClass 0))) := by
  have hname (i : TokenIndex) : expandName classProgram.declared [] i "A" = .ok (.ofClass 0) := by
    rw [expandName_plain (by rfl)]
    rfl
  have hgives : classProgram.Gives (.dictionary (.metaClass 0) (.array (.ofClass 0))) := by
    refine (gives_iff Expanded.sound_nil).2
      ⟨.dictionary 0 (.member 1 "A" metaName) (.array 2 (.name 3 "A")), ?_⟩
    simp only [expand, hname]
    rfl
  have hsource := List.forall_mem_singleton.2 isSource_classChunk
  refine ⟨hsource, ofChunks_class, hgives,
    (display_readsBack_iff hsource ofChunks_class hgives).2 ?_⟩
  rintro ⟨u, v, w, h⟩
  have htext : "[A.Type: [A]]".toList = u ++ '[' :: '[' :: (v ++ ']' :: ']' :: w) := h
  have hinfix : ['[', '['] <:+: "[A.Type: [A]]".toList :=
    ⟨u, v ++ ']' :: ']' :: w, by rw [htext]; simp⟩
  exact absurd hinfix (by decide)

theorem hasLongBracket_nested (d : Declared) (t : Ty) :
    HasLongBracket ((Ty.array (.array t)).display d).toList :=
  ⟨[], (t.display d).toList, [], by simp [Ty.toList_array]⟩

/-- The program of no source. -/
def emptyProgram : Program := ⟨.empty, [], [], []⟩

/-- An array of arrays is not read back: its text is a string. -/
theorem nested_array_not_readsBack : Program.ofChunks [] = .ok emptyProgram ∧
    emptyProgram.Gives (.array (.array .any)) ∧
    ¬ emptyProgram.ReadsBack ((Ty.array (.array .any)).display emptyProgram.declared)
      (.array (.array .any)) := by
  refine ⟨by rfl, ?_, fun h => ?_⟩
  · have hany (i : TokenIndex) : expandName emptyProgram.declared [] i anyName = .ok .any :=
      Ty.expandName_any (by simp [Declared.Distinct, Declared.names, emptyProgram, Declared.empty]) i
    refine (gives_iff Expanded.sound_nil).2 ⟨.array 0 (.array 1 (.name 2 anyName)), ?_⟩
    simp only [expand, hany]
    rfl
  · have hnames : ∀ i < emptyProgram.declared.objects.length,
        IsName (emptyProgram.declared.nameOf i) := by simp [emptyProgram, Declared.empty]
    have hb : (Ty.array (.array .any)).Below emptyProgram.declared.objects.length := trivial
    exact not_hasLongBracket_of_readsBack hnames hb h (hasLongBracket_nested _ _)

end Program
end ScriptFront
