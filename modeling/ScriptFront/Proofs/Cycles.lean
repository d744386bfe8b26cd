import ScriptFront.Proofs.AliasCache
import ScriptFront.Proofs.AnnotationTable
import ScriptFront.Proofs.NameTables
import ScriptFront.Proofs.Visits
/-! Errors about cycles. What such an error names does reach itself, and no program that resolves has
an alias that does, whether something uses it or not. -/
namespace ScriptFront.Syntax

/-- The names that a type mentions as types: by themselves, or as what the meta type is of. -/
def TypeExpr.mentions : TypeExpr → List String
  | name _ n => [n]
  | member _ p n => if n = Program.metaName then [p] else []
  | optional _ t | array _ t => t.mentions
  | dictionary _ k v => k.mentions ++ v.mentions

end ScriptFront.Syntax

namespace ScriptFront.Program
open Syntax Relation Phrase

namespace Declared

def IsAlias (d : Declared) (n : String) : Prop := (d.typeAlias? n).isSome

/-- The graph of the aliases: the target of `m` mentions the alias `n`. -/
def Mentions (d : Declared) (m n : String) : Prop :=
  ∃ a, d.typeAlias? m = some a ∧ n ∈ a.type.mentions ∧ d.IsAlias n

/-- `Denotes d t u` says that `t` is `u` once each alias is replaced by what it stands for. -/
inductive Denotes (d : Declared) : TypeExpr → Ty → Prop
  | optional : Denotes d t u → Denotes d (.optional i t) (.optional u)
  | array : Denotes d t u → Denotes d (.array i t) (.array u)
  | dictionary : Denotes d k u → Denotes d v w → Denotes d (.dictionary i k v) (.dictionary u w)
  | plain : d.typeAlias? n = none → d.plainType i n = .ok u → Denotes d (.name i n) u
  | expanded : d.typeAlias? n = some a → Denotes d a.type u → Denotes d (.name i n) u
  | member : Denotes d (.name i p) u → metaType i p u = .ok w →
    Denotes d (.member i p metaName) w

end Declared

/-- The error is about a cycle. -/
def ResolveCause.IsCycle : ResolveCause → Prop
  | .cyclicConformance | .cyclicAlias => True
  | _ => False

/-- What an error about a cycle names reaches itself. -/
def ResolveError.Closes (e : ResolveError) (d : Declared) : Prop :=
  match e.cause with
  | .cyclicConformance => ∃ i, d.find? e.name = some i ∧ TransGen d.Names i i
  | .cyclicAlias => TransGen d.Mentions e.name e.name
  | _ => True

/-- Only an object in progress is reported, and each of these reaches the one whose list is read. -/
theorem blames_closes (d : Declared) : Blames d (·.Closes d) where
  target h hr := by
    cases hr with
    | cyclic hj hm => exact ⟨_, hj, .tail' (h.reaches _ hm) (h.names hj)⟩
    | _ => trivial
  adopt _ _ _ _ _ _ := trivial

section Aliases
variable {d : Declared} {i : TokenIndex} {n : String} {t : TypeExpr} {u : Ty} {a : AliasDecl}
  {expanding : List String}

theorem closes_plainType : Fails (·.Closes d) (d.plainType i n) := by
  unfold Declared.plainType
  split
  · exact .ok
  · split
    · exact .ok
    · exact .error trivial

theorem closes_metaType : Fails (·.Closes d) (metaType i n u) := by
  unfold metaType
  split
  · exact .ok
  · exact .ok
  · exact .error trivial

mutual

/-- Each alias that is being expanded reaches those that are mentioned where the expansion is. -/
theorem closes_expand (expanding : List String) {t : TypeExpr}
    (h : ∀ m ∈ expanding, ∀ n ∈ t.mentions, d.IsAlias n → TransGen d.Mentions m n) :
    Fails (·.Closes d) (expand d expanding t) := by
  cases t with
  | name i n =>
    rw [expand]
    exact closes_expandName expanding fun m hm => h m hm n List.mem_cons_self
  | member i p n =>
    rw [expand]
    split
    · next hn =>
      have hp (m) (hm : m ∈ expanding) := h m hm p (by simp [TypeExpr.mentions, hn])
      exact .bind (closes_expandName expanding hp) fun _ _ => closes_metaType
    · exact .error trivial
  | optional i t =>
    rw [expand]
    exact .bind (closes_expand expanding h) fun _ _ => .ok
  | array i t =>
    rw [expand]
    exact .bind (closes_expand expanding h) fun _ _ => .ok
  | dictionary i k v =>
    rw [expand]
    refine .bind (closes_expand expanding fun m hm n hn => ?_) fun _ _ => ?_
    · exact h m hm n (List.mem_append_left _ hn)
    · refine .bind (closes_expand expanding fun m hm n hn => ?_) fun _ _ => .ok
      exact h m hm n (List.mem_append_right _ hn)
termination_by (d.unexpanded expanding, sizeOf t)

theorem closes_expandName (expanding : List String) {i : TokenIndex} {n : String}
    (h : ∀ m ∈ expanding, d.IsAlias n → TransGen d.Mentions m n) :
    Fails (·.Closes d) (expandName d expanding i n) := by
  cases ha : d.typeAlias? n with
  | none =>
    rw [expandName_plain ha]
    exact closes_plainType
  | some a =>
    have hn : d.IsAlias n := Option.isSome_of_eq_some ha
    by_cases hmem : n ∈ expanding
    · rw [expandName_cycle ha hmem]
      exact .error (h n hmem hn)
    · rw [expandName_alias ha hmem]
      refine closes_expand (n :: expanding) fun m hm k hk hal => ?_
      have hnk : d.Mentions n k := ⟨a, ha, hk, hal⟩
      rcases List.mem_cons.1 hm with rfl | hm
      · exact .single hnk
      · exact (h m hm hn).tail hnk
termination_by (d.unexpanded expanding, 0)
decreasing_by exact .left _ _ (Declared.unexpanded_lt ha hmem)

end

mutual

theorem denotes_of_expand {expanding : List String} {t : TypeExpr} {u : Ty}
    (h : expand d expanding t = .ok u) : d.Denotes t u := by
  cases t with
  | name i n =>
    rw [expand] at h
    exact denotes_of_expandName h
  | member i p n =>
    rw [expand] at h
    split at h
    · next hn =>
      obtain ⟨w, hw, h⟩ := bind_ok.1 h
      subst hn
      exact .member (denotes_of_expandName hw) h
    · cases h
  | optional i t =>
    simp only [expand, bind_ok] at h
    obtain ⟨w, hw, h⟩ := h
    cases h
    exact .optional (denotes_of_expand hw)
  | array i t =>
    simp only [expand, bind_ok] at h
    obtain ⟨w, hw, h⟩ := h
    cases h
    exact .array (denotes_of_expand hw)
  | dictionary i k v =>
    simp only [expand, bind_ok] at h
    obtain ⟨w, hw, w', hw', h⟩ := h
    cases h
    exact .dictionary (denotes_of_expand hw) (denotes_of_expand hw')
termination_by (d.unexpanded expanding, sizeOf t)

theorem denotes_of_expandName {expanding : List String} {i : TokenIndex} {n : String} {u : Ty}
    (h : expandName d expanding i n = .ok u) : d.Denotes (.name i n) u := by
  cases ha : d.typeAlias? n with
  | none =>
    rw [expandName_plain ha] at h
    exact .plain ha h
  | some a =>
    by_cases hmem : n ∈ expanding
    · rw [expandName_cycle ha hmem] at h
      cases h
    · rw [expandName_alias ha hmem] at h
      exact .expanded ha (denotes_of_expand h)
termination_by (d.unexpanded expanding, 0)
decreasing_by exact .left _ _ (Declared.unexpanded_lt ha hmem)

end

namespace Declared

/-- Nothing that a finite type mentions can be expanded for ever. -/
theorem Denotes.acc (h : d.Denotes t u) :
    ∀ n ∈ t.mentions, d.IsAlias n → Acc (fun n m => d.Mentions m n) n := by
  induction h with
  | optional _ ih | array _ ih => exact ih
  | dictionary _ _ ihk ihv =>
    intro n hn
    rcases List.mem_append.1 hn with hn | hn
    · exact ihk n hn
    · exact ihv n hn
  | plain ha _ =>
    intro n hn hal
    obtain rfl := List.mem_singleton.1 hn
    rw [IsAlias, ha] at hal
    cases hal
  | expanded ha _ ih =>
    intro n hn _
    obtain rfl := List.mem_singleton.1 hn
    constructor
    rintro k ⟨b, hb, hk, hal⟩
    cases ha.symm.trans hb
    exact ih k hk hal
  | @member i p _ _ _ _ ih =>
    intro n hn
    rw [TypeExpr.mentions, if_pos rfl] at hn
    exact ih n hn

/-- Where nothing on the stack can be met again, a type is expanded to what it denotes. -/
theorem Denotes.expand (h : d.Denotes t u) (hacyclic : ∀ n, ¬ TransGen d.Mentions n n)
    (hfar : ∀ m ∈ expanding, ∀ n ∈ t.mentions, d.IsAlias n → ¬ ReflTransGen d.Mentions n m) :
    Program.expand d expanding t = .ok u := by
  induction h generalizing expanding with
  | optional _ ih | array _ ih =>
    rw [Program.expand, ih hfar]
    rfl
  | dictionary _ _ ihk ihv =>
    have hk := ihk fun m hm n hn => hfar m hm n (List.mem_append_left _ hn)
    have hv := ihv fun m hm n hn => hfar m hm n (List.mem_append_right _ hn)
    rw [Program.expand, hk, ok_bind, hv]
    rfl
  | plain ha hu => rw [Program.expand, expandName_plain ha, hu]
  | @expanded n a u i ha _ ih =>
    have hal : d.IsAlias n := Option.isSome_of_eq_some ha
    have hn : n ∉ expanding := fun hn => hfar n hn n List.mem_cons_self hal .refl
    rw [Program.expand, expandName_alias ha hn]
    refine ih fun m hm k hk hkal hkm => ?_
    have hnm : TransGen d.Mentions n m := .head' ⟨a, ha, hk, hkal⟩ hkm
    rcases List.mem_cons.1 hm with rfl | hm
    · exact hacyclic m hnm
    · exact hfar m hm n List.mem_cons_self hal hnm.to_reflTransGen
  | @member i p u w _ hw ih =>
    have hp := ih fun m hm n hn => hfar m hm n (by simpa [TypeExpr.mentions] using hn)
    rw [Program.expand] at hp
    rw [Program.expand, if_pos rfl, hp, ok_bind, hw]

/-- Where every target denotes a type, no alias reaches itself. -/
theorem acyclic_of_denotes (h : ∀ a ∈ d.aliases, ∃ u, d.Denotes a.type u) (n : String) :
    ¬ TransGen d.Mentions n n := by
  refine irrefl_of_acc ⟨n, ?_⟩
  rintro m ⟨a, ha, hm, hal⟩
  obtain ⟨u, hu⟩ := h a (List.mem_of_find?_eq_some ha)
  exact hu.acc m hm hal

end Declared

theorem expand_of_foldlM {annotations : List TypeExpr} {table table' : TypeTable}
    (h : annotations.foldlM (fun table t => do
      return TypeTable.insert t.anchor (← expand d [] t) table) table = .ok table')
    (ht : t ∈ annotations) : ∃ u, expand d [] t = .ok u := by
  induction annotations generalizing table with
  | nil => cases ht
  | cons t' annotations ih =>
    rw [List.foldlM_cons, bind_ok] at h
    obtain ⟨table₁, h₁, h⟩ := h
    rcases List.mem_cons.1 ht with rfl | ht
    · obtain ⟨u, hu, -⟩ := bind_ok.1 h₁
      exact ⟨u, hu⟩
    · exact ih h ht

end Aliases

section Programs
variable {chunks : List Chunk} {p : Program} {d : Declared} {e : ResolveError}

theorem not_isCycle_ofChunks : Fails (¬ ·.cause.IsCycle) (Declared.ofChunks chunks) := by
  refine Declared.duplicate_of_ofChunks.mono fun e he => ?_
  rcases he with he | he <;> simp [he, ResolveCause.IsCycle]

theorem ofChunks_closes (h : Program.ofChunks chunks = .error e) (hc : e.cause.IsCycle) :
    ∃ d, Declared.ofChunks chunks = .ok d ∧ e.Closes d := by
  rcases phase_of_error h with h | ⟨d, hd, h | h⟩
  · exact absurd hc (not_isCycle_ofChunks e h)
  · exact ⟨d, hd, (blames_closes d).ofDeclared e h⟩
  · refine ⟨d, hd, (?_ : Fails (·.Closes d) _) e h⟩
    refine .mapM fun c _ => .foldlM (fun _ t _ => ?_) []
    exact .bind (closes_expand [] nofun) fun _ _ => .ok

/-- The target of an alias is one of the annotations of its chunk, so a program that resolves has
expanded it. -/
theorem denotes_of_ofChunks (h : Program.ofChunks chunks = .ok p) :
    ∀ a ∈ p.declared.aliases, ∃ u, p.declared.Denotes a.type u := by
  intro a ha
  obtain ⟨hd, -, htables, -⟩ := ofChunks_ok h
  obtain ⟨-, hitems⟩ := Declared.ofChunks_ok_iff.1 hd
  rw [hitems] at ha
  obtain ⟨c, hc, hitem⟩ := List.mem_flatten.1 (Declared.mem_aliases_ofItems.1 ha)
  have hmem : a.type ∈ annotationsOfChunk c :=
    List.mem_flatMap.2 ⟨_, hitem, List.mem_cons_self⟩
  obtain ⟨k, hk⟩ := List.getElem?_of_mem hc
  obtain ⟨table, -, htable⟩ := getElem?_of_mapM htables hk
  obtain ⟨u, hu⟩ := expand_of_foldlM htable hmem
  exact ⟨u, denotes_of_expand hu⟩

/-- Errors about cycles name what reaches itself, and in a program that resolves no alias does: each
stands for a finite type, which the program gives for it. -/
theorem ofChunks_cycles (chunks : List Chunk) :
    (∀ e, Program.ofChunks chunks = .error e → e.cause = .cyclicConformance →
      ∃ d i, Declared.ofChunks chunks = .ok d ∧ d.find? e.name = some i ∧ TransGen d.Names i i) ∧
    (∀ e, Program.ofChunks chunks = .error e → e.cause = .cyclicAlias →
      ∃ d, Declared.ofChunks chunks = .ok d ∧ TransGen d.Mentions e.name e.name) ∧
    (∀ p, Program.ofChunks chunks = .ok p → (∀ n, ¬ TransGen p.declared.Mentions n n) ∧
      ∀ a ∈ p.declared.aliases, ∃ t, p.declared.Denotes a.type t ∧
        ∀ i, (p.resolveType (.name i a.name)).1 = .ok t) ∧
    ∀ d, Declared.ofChunks chunks = .ok d → ∀ e, Program.ofChunks chunks = .error e →
      ((∀ i, ¬ TransGen d.Names i i) → e.cause ≠ .cyclicConformance) ∧
      ((∀ n, ¬ TransGen d.Mentions n n) → e.cause ≠ .cyclicAlias) := by
  have hconformance (e) (h : Program.ofChunks chunks = .error e)
      (hc : e.cause = .cyclicConformance) :
      ∃ d i, Declared.ofChunks chunks = .ok d ∧ d.find? e.name = some i ∧
        TransGen d.Names i i := by
    obtain ⟨d, hd, hcl⟩ := ofChunks_closes h (hc ▸ trivial)
    rw [ResolveError.Closes, hc] at hcl
    obtain ⟨i, hi, hcycle⟩ := hcl
    exact ⟨d, i, hd, hi, hcycle⟩
  have halias (e) (h : Program.ofChunks chunks = .error e) (hc : e.cause = .cyclicAlias) :
      ∃ d, Declared.ofChunks chunks = .ok d ∧ TransGen d.Mentions e.name e.name := by
    obtain ⟨d, hd, hcl⟩ := ofChunks_closes h (hc ▸ trivial)
    rw [ResolveError.Closes, hc] at hcl
    exact ⟨d, hd, hcl⟩
  refine ⟨hconformance, halias, fun p hp => ?_, fun d hd e he => ⟨fun hd' hc => ?_, fun hd' hc => ?_⟩⟩
  · obtain ⟨hdecl, -, -, hs⟩ := ofChunks_ok hp
    have hdenotes := denotes_of_ofChunks hp
    have hacyclic := Declared.acyclic_of_denotes hdenotes
    refine ⟨hacyclic, fun a ha => ?_⟩
    obtain ⟨t, ht⟩ := hdenotes a ha
    refine ⟨t, ht, fun i => ?_⟩
    have hname : p.declared.Denotes (.name i a.name) t :=
      .expanded ((Declared.distinct_ofChunks hdecl).typeAlias?_iff.2 ⟨ha, rfl⟩) ht
    rw [(resolveType_eq hs _).1]
    exact hname.expand hacyclic nofun
  · obtain ⟨d', i, h, -, hcycle⟩ := hconformance e he hc
    cases hd.symm.trans h
    exact hd' i hcycle
  · obtain ⟨d', h, hcycle⟩ := halias e he hc
    cases hd.symm.trans h
    exact hd' e.name hcycle

/-- `protocol P : Q, R end protocol Q : S end protocol R : S end protocol S end` and
`typealias A = [B: C] typealias B = D? typealias C = D typealias D = Any` -/
def diamonds : Declared :=
  ⟨[.ofProtocol ⟨1, "P", [⟨3, "Q"⟩, ⟨5, "R"⟩], []⟩, .ofProtocol ⟨8, "Q", [⟨10, "S"⟩], []⟩,
    .ofProtocol ⟨13, "R", [⟨15, "S"⟩], []⟩, .ofProtocol ⟨18, "S", [], []⟩],
   [⟨21, "A", .dictionary 23 (.name 24 "B") (.name 26 "C")⟩,
    ⟨29, "B", .optional 31 (.name 31 "D")⟩, ⟨34, "C", .name 36 "D"⟩, ⟨38, "D", .name 40 "Any"⟩]⟩

def Declared.chunk (d : Declared) : Chunk := d.objects.map .object ++ d.aliases.map .typeAlias

/-- `class A : B end class B : A end` -/
def cyclicClasses : Declared :=
  ⟨[.ofClass ⟨1, "A", [⟨3, "B"⟩], []⟩, .ofClass ⟨6, "B", [⟨8, "A"⟩], []⟩], []⟩

theorem ofChunks_cyclicClasses :
    Program.ofChunks [cyclicClasses.chunk] = .error ⟨.cyclicConformance, "A", 8⟩ := by
  have hd : Declared.ofChunks [cyclicClasses.chunk] = .ok cyclicClasses := by rfl
  have ha : Arena.ofDeclared cyclicClasses = .error ⟨.cyclicConformance, "A", 8⟩ := by
    rw [ofDeclared_eq_within]
    rfl
  rw [Program.ofChunks, hd, ok_bind, ha]
  rfl

theorem ofChunks_cyclicAliases :
    Program.ofChunks [cyclicAliases.chunk] = .error ⟨.cyclicAlias, "C", 6⟩ := by
  have hd : Declared.ofChunks [cyclicAliases.chunk] = .ok cyclicAliases := by rfl
  have harena : Arena.ofDeclared cyclicAliases = .ok [] := by rfl
  have ha : cyclicAliases.typeAlias? "A" =
      some ⟨1, "A", .dictionary 3 (.name 4 "B") (.name 6 "C")⟩ := by rfl
  have hb : cyclicAliases.typeAlias? "B" = some ⟨9, "B", .name 11 "Any"⟩ := by rfl
  have hc : cyclicAliases.typeAlias? "C" = some ⟨13, "C", .optional 15 (.name 15 "A")⟩ := by rfl
  have hany : cyclicAliases.typeAlias? "Any" = none := by rfl
  have hplain (i) : cyclicAliases.plainType i "Any" = .ok .any := by rfl
  have hx : expand cyclicAliases [] (.dictionary 3 (.name 4 "B") (.name 6 "C")) =
      .error ⟨.cyclicAlias, "C", 6⟩ := by
    simp [expand, expandName_alias ha, expandName_alias hb, expandName_alias hc,
      expandName_cycle hc, expandName_plain hany, hplain, bind, Except.bind]
  have hs : annotationsOfChunk cyclicAliases.chunk =
      [.dictionary 3 (.name 4 "B") (.name 6 "C"), .name 11 "Any", .optional 15 (.name 15 "A")] := by
    rfl
  rw [← uncached_error_iff, uncached, hd, ok_bind, harena, ok_bind]
  simp only [List.mapM_cons, TypeTable.expandAll, hs, List.foldlM_cons, hx]
  rfl

theorem exists_ofChunks_diamonds :
    ∃ p, Program.ofChunks [diamonds.chunk] = .ok p ∧ p.declared = diamonds := by
  have hd : Declared.ofChunks [diamonds.chunk] = .ok diamonds := by rfl
  have ha : ∃ a, Arena.ofDeclared diamonds = .ok a := by
    rw [ofDeclared_eq_within]
    exact ⟨_, rfl⟩
  obtain ⟨a, ha⟩ := ha
  have hb : diamonds.typeAlias? "B" = some ⟨29, "B", .optional 31 (.name 31 "D")⟩ := by rfl
  have hc : diamonds.typeAlias? "C" = some ⟨34, "C", .name 36 "D"⟩ := by rfl
  have hd' : diamonds.typeAlias? "D" = some ⟨38, "D", .name 40 "Any"⟩ := by rfl
  have hany : diamonds.typeAlias? "Any" = none := by rfl
  have hplain (i) : diamonds.plainType i "Any" = .ok .any := by rfl
  have hs : annotationsOfChunk diamonds.chunk = [.dictionary 23 (.name 24 "B") (.name 26 "C"),
      .optional 31 (.name 31 "D"), .name 36 "D", .name 40 "Any"] := by rfl
  have hu : ∃ ts, uncached [diamonds.chunk] = .ok (diamonds, a, ts) := by
    rw [uncached, hd, ok_bind, ha, ok_bind]
    simp [List.mapM_cons, TypeTable.expandAll, hs, List.foldlM_cons, expand, expandName_alias hb,
      expandName_alias hc, expandName_alias hd', expandName_plain hany, hplain, bind, Except.bind,
      pure, Except.pure]
  obtain ⟨ts, hu⟩ := hu
  rw [← ofChunks_uncached] at hu
  obtain ⟨p, hp, hpd⟩ := map_ok.1 hu
  exact ⟨p, hp, congrArg Prod.fst hpd⟩

theorem ofChunks_cycles_diamonds :
    (∃ d i, Declared.ofChunks [cyclicClasses.chunk] = .ok d ∧ d.find? "A" = some i ∧
      TransGen d.Names i i) ∧
    (∃ d, Declared.ofChunks [cyclicAliases.chunk] = .ok d ∧ TransGen d.Mentions "C" "C") ∧
    (∃ p, Program.ofChunks [diamonds.chunk] = .ok p ∧ p.declared = diamonds) ∧
    (∀ n, ¬ TransGen diamonds.Mentions n n) ∧ diamonds.Mentions "B" "D" ∧
    diamonds.Mentions "C" "D" := by
  have hclasses := (ofChunks_cycles [cyclicClasses.chunk]).1 _ ofChunks_cyclicClasses rfl
  have haliases := (ofChunks_cycles [cyclicAliases.chunk]).2.1 _ ofChunks_cyclicAliases rfl
  obtain ⟨p, hp, hd⟩ := exists_ofChunks_diamonds
  have hacyclic := ((ofChunks_cycles [diamonds.chunk]).2.2.1 p hp).1
  rw [hd] at hacyclic
  exact ⟨hclasses, haliases, ⟨p, hp, hd⟩, hacyclic,
    ⟨⟨29, "B", .optional 31 (.name 31 "D")⟩, by rfl, List.mem_cons_self, by rfl⟩,
    ⟨⟨34, "C", .name 36 "D"⟩, by rfl, List.mem_cons_self, by rfl⟩⟩

end Programs

end ScriptFront.Program
