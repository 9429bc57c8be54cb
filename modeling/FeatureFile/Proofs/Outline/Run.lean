/-
# FeatureFile.Proofs.Outline.Run — the open nodes after a stretch of tokens

`Builder.Reads b ts` is the invariant of building: after the tokens `ts` the leaves of the open nodes
and the waiting trivia are these tokens, numbered in order; the nodes opened so far are numbered in
order from the root on; and whatever is closed is solid. One token keeps it (`reads_step`), so it
holds at the end of every source (`reads_foldl`), and the finished tree inherits it
(`finish_of_reads`).
-/

import FeatureFile.Proofs.Outline.Growth

namespace FeatureFile

/-- Tokens with their numbers. -/
def numbered (ts : List Token) : List (Nat × Token) := ts.mapIdx fun i t => (i, t)

theorem numbered_concat (ts : List Token) (t : Token) :
    numbered (ts ++ [t]) = numbered ts ++ [(ts.length, t)] := List.mapIdx_concat

theorem map_snd_numbered (ts : List Token) : (numbered ts).map Prod.snd = ts := by
  apply List.ext_getElem <;> simp [numbered]

theorem mem_numbered_iff {ts : List Token} {i : Nat} {t : Token} :
    (i, t) ∈ numbered ts ↔ ts[i]? = some t := by
  rw [numbered, List.mem_mapIdx, List.getElem?_eq_some_iff]
  constructor
  · rintro ⟨j, hj, heq⟩
    obtain ⟨rfl, rfl⟩ := Prod.mk.inj heq
    exact ⟨hj, rfl⟩
  · rintro ⟨hi, rfl⟩
    exact ⟨i, hi, rfl⟩

namespace Builder

/-! ## §A A grown path -/

section Grown

variable {b b' : Builder} {t : Token} {p : OpenPath} {kinds : List NodeKind}
  {faults : List Degradation.Kind}

/-- The tokens that the builder has seen, those that wait included. -/
def leaves (b : Builder) : List (Nat × Token) :=
  b.path.leaves ++ Element.leavesOf b.pending.reverse

theorem Grown.closes (h : b.Grown t p kinds faults b') :
    (b.grownPath t p kinds).Closes b'.path := by
  rw [h.path_eq]
  split
  · exact .closeOne _ _
  · exact .refl _

theorem leaves_grownPath (b : Builder) (t : Token) {p : OpenPath} (kinds : List NodeKind)
    (hp : b.path.Closes p) :
    (b.grownPath t p kinds).leaves = b.leaves ++ [(b.nextToken, t)] := by
  rw [grownPath, OpenPath.leaves_push, OpenPath.leaves_openAll, OpenPath.leaves_pushAll,
    OpenPath.leaves_of_closes hp, Element.leaves]
  rfl

theorem Grown.leaves_eq (h : b.Grown t p kinds faults b') (hp : b.path.Closes p) :
    b'.leaves = b.leaves ++ [(b.nextToken, t)] := by
  rw [leaves, h.pending_eq, OpenPath.leaves_of_closes h.closes, leaves_grownPath b t kinds hp]
  exact List.append_nil _

/-- The nodes that a token opens stand at the end of the trace, inside the path it leaves open. -/
theorem Grown.trace_eq (h : b.Grown t p kinds faults b') (hp : b.path.Closes p)
    (hpending : ∀ e ∈ b.pending, e.node? = none) :
    b'.path.trace =
      b.path.trace ++ OpenPath.openings b.leaves.length p.labels b.nextId kinds := by
  have hwaiting : ∀ e ∈ b.pending.reverse, e.node? = none := fun e he =>
    hpending e (List.mem_reverse.mp he)
  rw [OpenPath.trace_of_closes h.closes, grownPath, OpenPath.trace_push_token,
    OpenPath.trace_openAll, OpenPath.trace_pushAll p hwaiting, OpenPath.leaves_pushAll,
    OpenPath.labels_pushAll, OpenPath.trace_of_closes hp, OpenPath.leaves_of_closes hp]
  rfl

theorem solid_of_node?_eq_none {e : Element} (h : e.node? = none) : e.Solid := by
  cases e with
  | token i t => exact .token i t
  | node id kind span children => simp [Element.node?] at h

theorem Grown.sound (h : b.Grown t p kinds faults b') (hp : b.path.Closes p) (hb : b.path.Sound)
    (hpending : ∀ e ∈ b.pending, e.node? = none) : b'.path.Sound := by
  have hwaiting : ∀ e ∈ b.pending.reverse, e.Solid := fun e he =>
    solid_of_node?_eq_none (hpending e (List.mem_reverse.mp he))
  have hopen := OpenPath.solid_openAll
    (OpenPath.solid_pushAll (OpenPath.sound_of_closes hp hb).solid hwaiting) b.nextId kinds
  have htoken : ∀ e ∈ [Element.token b.nextToken t], e.Solid := by
    intro e he
    rw [List.mem_singleton.mp he]
    exact .token _ _
  refine OpenPath.sound_of_closes h.closes ⟨?_, Or.inl (List.cons_ne_nil _ _)⟩
  exact OpenPath.solid_pushAll hopen htoken

end Grown

/-! ## §B The invariant of a run -/

/-- **`b.Reads ts`** — the builder after the tokens `ts`. -/
structure Reads (b : Builder) (ts : List Token) : Prop where
  leaves_eq : b.leaves = numbered ts
  nextToken_eq : b.nextToken = ts.length
  /-- Only tokens wait. -/
  pending_token : ∀ e ∈ b.pending, e.node? = none
  /-- Nodes are numbered as they are opened. -/
  ids_eq : b.path.trace.map (·.id) = List.range b.nextId
  /-- The first node is the root. -/
  head_eq : b.path.trace.head? = some ⟨0, [], 0, .file⟩
  sound : b.path.Sound

theorem reads_nil : Reads {} [] where
  leaves_eq := rfl
  nextToken_eq := rfl
  pending_token e he := by simp at he
  ids_eq := rfl
  head_eq := rfl
  sound := ⟨by simp [OpenPath.nodes], Or.inr rfl⟩

theorem Reads.length_leaves {b : Builder} {ts : List Token} (h : b.Reads ts) :
    b.leaves.length = ts.length := by
  rw [h.leaves_eq, numbered, List.length_mapIdx]

theorem reads_trivia {b : Builder} {ts : List Token} {t : Token} (h : b.Reads ts)
    (ht : t.isTrivia = true) : (b.step t).Reads (ts ++ [t]) := by
  rw [step_trivia b ht]
  refine ⟨?_, ?_, ?_, h.ids_eq, h.head_eq, h.sound⟩
  · rw [numbered_concat, ← h.leaves_eq, ← h.nextToken_eq]
    simp only [leaves, List.reverse_cons, Element.leavesOf_append, Element.leavesOf_singleton,
      Element.leaves, List.append_assoc]
  · rw [List.length_append, ← h.nextToken_eq]
    rfl
  · intro e he
    rcases List.mem_cons.mp he with rfl | he
    · rfl
    · exact h.pending_token e he

theorem reads_significant {b : Builder} {ts : List Token} {t : Token} (h : b.Reads ts)
    (ht : t.isTrivia = false) : (b.step t).Reads (ts ++ [t]) := by
  obtain ⟨p, kinds, faults, hplace, hgrown⟩ := step_grown b ht
  have htrace := hgrown.trace_eq hplace.closes h.pending_token
  refine ⟨?_, ?_, ?_, ?_, ?_, hgrown.sound hplace.closes h.sound h.pending_token⟩
  · rw [hgrown.leaves_eq hplace.closes, h.leaves_eq, h.nextToken_eq, numbered_concat]
  · rw [hgrown.nextToken_eq, h.nextToken_eq, List.length_append]
    rfl
  · rw [hgrown.pending_eq]
    intro e he
    simp at he
  · rw [htrace, List.map_append, h.ids_eq, OpenPath.map_id_openings, hgrown.nextId_eq,
      List.range_eq_range', List.range_eq_range']
    simpa using List.range'_append_1 (s := 0) (m := b.nextId) (n := kinds.length)
  · rw [htrace, List.head?_append, h.head_eq]
    rfl

/-- One token. -/
theorem reads_step {b : Builder} {ts : List Token} (h : b.Reads ts) (t : Token) :
    (b.step t).Reads (ts ++ [t]) := by
  cases ht : t.isTrivia with
  | true => exact reads_trivia h ht
  | false => exact reads_significant h ht

/-- A stretch of tokens. -/
theorem reads_foldl {b : Builder} {done : List Token} (h : b.Reads done) (ts : List Token) :
    (ts.foldl step b).Reads (done ++ ts) := by
  induction ts generalizing b done with
  | nil => rwa [List.append_nil]
  | cons t ts ih =>
    have hrest := ih (reads_step h t)
    rwa [List.append_assoc] at hrest

/-! ## §C The end of a run -/

theorem sound_pushAll {p : OpenPath} {es : List Element} (hp : p.Sound)
    (hes : ∀ e ∈ es, e.Solid) : (p.pushAll es).Sound := by
  refine ⟨OpenPath.solid_pushAll hp.solid hes, ?_⟩
  rw [OpenPath.pushAll_eq]
  rcases hp.ready with hready | hready
  · exact Or.inl (by simp [hready])
  · exact Or.inr hready

/-- **The finished tree.** It is the root with solid children, its leaves are the numbered tokens,
and its nodes are those that were opened. -/
theorem finish_of_reads {b : Builder} {ts : List Token} (h : b.Reads ts) (size : Nat) :
    ∃ children, (b.finish size).1 =
        .node 0 .file (Span.coverAll (children.map Element.span)) children ∧
      (∀ e ∈ children, e.Solid) ∧ (b.finish size).1.leaves = numbered ts ∧
      (b.finish size).1.trace 0 [] = b.path.trace := by
  obtain ⟨p, hp, hfinish⟩ := finish_eq b size
  have hwaiting : ∀ e ∈ b.pending.reverse, e.node? = none := fun e he =>
    h.pending_token e (List.mem_reverse.mp he)
  have hsound : (p.pushAll b.pending.reverse).Sound :=
    sound_pushAll (OpenPath.sound_of_closes hp h.sound) fun e he =>
      solid_of_node?_eq_none (hwaiting e he)
  obtain ⟨id, kind, children, hroot, hsolid, hleaves, htrace⟩ := OpenPath.finish_spec hsound
  rw [OpenPath.leaves_pushAll, OpenPath.leaves_of_closes hp] at hleaves
  rw [OpenPath.trace_pushAll p hwaiting, OpenPath.trace_of_closes hp] at htrace
  have hhead := h.head_eq
  rw [← htrace, hroot, Element.trace] at hhead
  injection hhead with hopening
  injection hopening with _ _ hid hkind
  rw [hfinish]
  refine ⟨children, ?_, hsolid, hleaves.trans h.leaves_eq, htrace⟩
  rw [hroot, hid, hkind]

end Builder

end FeatureFile
