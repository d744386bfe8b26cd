import Mathlib.Data.List.SplitBy
import ScriptFront.Proofs.DisplayReading
/-! No two types of a program have the same text. The text of a type is split in one way into names
and single marks, also where it would be read as a long string. These spell one annotation, and that
stands for one type. -/
namespace ScriptFront
namespace Token
open Text

/-- The characters of a type's text that no name has. -/
def marks : List Char := ['?', '[', ']', ':', '.', ' ']

/-- Whether two characters side by side belong together. -/
def joins (c e : Char) : Bool := c ∉ marks && e ∉ marks

section Pieces
variable {n : String} {c : Char} {u r : List Char} {ps qs : List Piece}

theorem not_mem_marks_of_isName (h : IsName n) : ∀ c ∈ n.toList, c ∉ marks := by
  have hmarks (m) (hm : m ∈ marks) : isWordStart m = false ∧ isWord m = false := by
    simp only [marks, List.mem_cons, List.not_mem_nil, or_false] at hm
    rcases hm with rfl | rfl | rfl | rfl | rfl | rfl <;> decide
  obtain ⟨⟨c, cs, hn, hc, hcs⟩, -⟩ := h
  rw [hn]
  refine List.forall_mem_cons.2 ⟨fun hm => ?_, fun e he hm => ?_⟩
  · simp [(hmarks c hm).1] at hc
  · simpa [(hmarks e hm).2] using hcs e he

theorem splitBy_name (h : IsName n) : n.toList.splitBy joins = [n.toList] := by
  have hmarks := not_mem_marks_of_isName h
  obtain ⟨⟨c, cs, hn, -⟩, -⟩ := h
  refine List.splitBy_of_isChain (by simp [hn]) (List.Pairwise.isChain ?_)
  exact List.pairwise_of_forall_mem_list fun c hc e he => by simp [joins, hmarks c hc, hmarks e he]

/-- A mark stands alone, whatever is around it. -/
theorem splitBy_mark (hc : c ∈ marks) :
    (u ++ c :: r).splitBy joins = u.splitBy joins ++ [c] :: r.splitBy joins := by
  have hleft : ∀ x ∈ u.getLast?, joins x c = false := fun x _ => by simp [joins, hc]
  have hright : ∀ x ∈ [c].getLast?, ∀ y ∈ r.head?, joins x y = false := by simp [joins, hc]
  rw [List.splitBy_append_cons r hleft, ← List.singleton_append, List.splitBy_append hright]
  rfl

theorem splitBy_cons_mark (hc : c ∈ marks) :
    (c :: r).splitBy joins = [c] :: r.splitBy joins := splitBy_mark (u := []) hc

/-- Pieces that can be read alone are known by their texts. -/
theorem eq_of_map_text (hps : ∀ p ∈ ps, IsFirst p []) (hqs : ∀ q ∈ qs, IsFirst q [])
    (h : ps.map Piece.text = qs.map Piece.text) : ps = qs := by
  have hread {ps : List Piece} (hps : ∀ p ∈ ps, IsFirst p []) :
      (ps.map Piece.text).map (fun w => (firstPiece? w).map (·.1)) = ps.map some := by
    rw [List.map_map]
    refine List.map_congr_left fun p hp => ?_
    have hfirst : firstPiece? (p.text ++ []) = some (p, []) := hps p hp
    rw [List.append_nil] at hfirst
    simp [hfirst]
  have hmap : ps.map some = qs.map some := by rw [← hread hps, h, hread hqs]
  exact List.map_injective_iff.2 (Option.some_injective _) hmap

end Pieces
end Token

namespace Program.Ty
open Token Text

section Text
variable {d : Declared} {t u : Ty}

/-- Split at its marks, the text of a type falls into its pieces. -/
theorem splitBy_display (hn : ∀ i < d.objects.length, IsName (d.nameOf i))
    (ht : t.Below d.objects.length) :
    (t.display d).toList.splitBy joins = (t.pieces d).map Piece.text := by
  induction t with
  | any => exact splitBy_name isName_any
  | ofProtocol i | ofClass i | ofEnum i => exact splitBy_name (hn i ht)
  | metaClass i | metaProtocol i =>
    rw [display, toList_meta, splitBy_mark (by decide), splitBy_name (hn i ht),
      splitBy_name isName_metaName]
    rfl
  | optional t ih =>
    rw [toList_optional, splitBy_mark (by decide), ih ht, pieces, List.map_append]
    rfl
  | array t ih =>
    rw [toList_array, splitBy_cons_mark (by decide), splitBy_mark (by decide), ih ht, pieces,
      List.map_cons, List.map_append]
    rfl
  | dictionary k v ihk ihv =>
    rw [toList_dictionary, splitBy_cons_mark (by decide), splitBy_mark (by decide),
      splitBy_cons_mark (by decide), splitBy_mark (by decide), ihk ht.1, ihv ht.2, pieces]
    simp only [List.map_cons, List.map_append]
    rfl

/-- Each piece of a type is read where nothing follows it. -/
theorem isFirst_pieces (hn : ∀ i < d.objects.length, IsName (d.nameOf i))
    (ht : t.Below d.objects.length) : ∀ p ∈ t.pieces d, IsFirst p [] := by
  have hbracket : ¬ HasLongBracket ['['] := by
    rintro ⟨u, v, w, h⟩
    have hlength := congrArg List.length h
    simp at hlength
    omega
  have hsquare : IsFirst (operatorPiece .squareLeft) [] := isFirst_squareLeft stops_nil hbracket
  induction t with
  | any => simpa [pieces] using isFirst_word isName_any.1 stops_nil
  | ofProtocol i | ofClass i | ofEnum i => simpa [pieces] using isFirst_word (hn i ht).1 stops_nil
  | metaClass i | metaProtocol i =>
    simpa [pieces] using ⟨isFirst_word (hn i ht).1 stops_nil, isFirst_dot stops_nil,
      isFirst_word isName_metaName.1 stops_nil⟩
  | optional t ih =>
    simp only [pieces, List.mem_append, List.mem_singleton]
    rintro p (hp | rfl)
    · exact ih ht p hp
    · exact isFirst_question []
  | array t ih =>
    simp only [pieces, List.mem_cons, List.mem_append, List.not_mem_nil, or_false]
    rintro p (rfl | hp | rfl)
    · exact hsquare
    · exact ih ht p hp
    · exact isFirst_squareRight []
  | dictionary k v ihk ihv =>
    simp only [pieces, List.mem_cons, List.mem_append, List.not_mem_nil, or_false]
    rintro p (rfl | hp | rfl | rfl | hp | rfl)
    · exact hsquare
    · exact ihk ht.1 p hp
    · exact isFirst_colon stops_nil
    · exact isFirst_space stops_nil
    · exact ihv ht.2 p hp
    · exact isFirst_squareRight []

/-- Types with the same text have the same pieces, so they are written as one annotation. -/
theorem eq_of_display (hn : ∀ i < d.objects.length, IsName (d.nameOf i)) (hd : d.Distinct)
    (ht : t.Below d.objects.length) (hu : u.Below d.objects.length) (ht' : t.Proper d)
    (hu' : u.Proper d) (h : t.display d = u.display d) : t = u := by
  have htexts : (t.pieces d).map Piece.text = (u.pieces d).map Piece.text := by
    rw [← splitBy_display hn ht, h, splitBy_display hn hu]
  have hpieces := eq_of_map_text (isFirst_pieces hn ht) (isFirst_pieces hn hu) htexts
  have hspelling : (t.written d).spelling = (u.written d).spelling := by
    rw [← tokens_pieces hn ht, hpieces, tokens_pieces hn hu]
  have hchunk := Phrase.chunk_aliasTokens "T" (t.written d)
  rw [Phrase.aliasTokens, hspelling, ← Phrase.aliasTokens, Phrase.chunk_aliasTokens] at hchunk
  have hplace : (u.written d).place 3 = (t.written d).place 3 := by simpa using hchunk
  have ht₃ : expand d [] ((t.written d).place 3) = .ok t := expand_written hd ht' 3
  rw [← hplace, expand_written hd hu' 3] at ht₃
  exact (Except.ok.inj ht₃).symm

end Text
end Program.Ty

namespace Program
open Syntax Token

variable {chunks : List Chunk} {p : Program} {t u : Ty}

/-- The texts of two types of a program are the same only if the types are. -/
theorem display_eq_iff (hc : ∀ c ∈ chunks, c.IsSource) (hp : Program.ofChunks chunks = .ok p)
    (ht : p.Gives t) (hu : p.Gives u) : t.display p.declared = u.display p.declared ↔ t = u := by
  obtain ⟨hd, -, -, hs⟩ := ofChunks_ok hp
  obtain ⟨a, ha⟩ := (gives_iff hs).1 ht
  obtain ⟨b, hb⟩ := (gives_iff hs).1 hu
  have hproper := Ty.invariant_proper p.declared
  refine ⟨?_, fun h => h ▸ rfl⟩
  exact Ty.eq_of_display (isName_nameOf hc hd) (Declared.distinct_ofChunks hd) (below_expand ha)
    (below_expand hb) (hproper.expand ha) (hproper.expand hb)

/-- `[[A.Type]]?` and `[[A.Type]?]` -/
theorem display_eq_iff_nested :
    (∀ c ∈ [classChunk], c.IsSource) ∧ Program.ofChunks [classChunk] = .ok classProgram ∧
      classProgram.Gives (.optional (.array (.array (.metaClass 0)))) ∧
      classProgram.Gives (.array (.optional (.array (.metaClass 0)))) ∧
      (Ty.optional (.array (.array (.metaClass 0)))).display classProgram.declared ≠
        (Ty.array (.optional (.array (.metaClass 0)))).display classProgram.declared := by
  have hname (i : TokenIndex) : expandName classProgram.declared [] i "A" = .ok (.ofClass 0) := by
    rw [expandName_plain (by rfl)]
    rfl
  have hmeta (i : TokenIndex) :
      expand classProgram.declared [] (.member i "A" metaName) = .ok (.metaClass 0) := by
    rw [expand, if_pos rfl, hname]
    rfl
  have houter : classProgram.Gives (.optional (.array (.array (.metaClass 0)))) := by
    refine (gives_iff Expanded.sound_nil).2
      ⟨.optional 0 (.array 0 (.array 1 (.member 2 "A" metaName))), ?_⟩
    rw [expand, expand, expand, hmeta]
    rfl
  have hinner : classProgram.Gives (.array (.optional (.array (.metaClass 0)))) := by
    refine (gives_iff Expanded.sound_nil).2
      ⟨.array 0 (.optional 1 (.array 1 (.member 2 "A" metaName))), ?_⟩
    rw [expand, expand, expand, hmeta]
    rfl
  have hsource := List.forall_mem_singleton.2 isSource_classChunk
  exact ⟨hsource, ofChunks_class, houter, hinner,
    mt (display_eq_iff hsource ofChunks_class houter hinner).1 (by simp)⟩

end Program
end ScriptFront
