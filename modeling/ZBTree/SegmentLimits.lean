import ZBTree.LogRecords

/-!
# The end of a log segment

`append_one` opens a new segment when a record would reach `log_end`, which is `CHUNK_SIZE - 64`, but
asks `resize` for `CHUNK_SIZE - 128` bytes. Where `resize` passes this size on, to `malloc` or to
`n_allocate`, a record can end behind the segment that holds it. With `pmdk_alloc`, which is asked for
`CHUNK_SIZE` bytes, none does.
-/

namespace ZBTree

/-- Where `resize` gets a segment from: `USE_PMDK`, `CXL`, or neither. -/
inductive LogBackend where
  | pmdk
  | cxl
  | pool
deriving DecidableEq, Repr

/-- The bytes that `resize(size)` asks for. -/
def LogBackend.asks : LogBackend → Nat → Nat
  | pmdk, _ => CHUNK_SIZE
  | cxl, size => size
  | pool, size => size

/-- `pmdk_alloc`, `malloc` or `n_allocate(size, 1)` as `resize` calls it: the address for a number of
bytes, over a state of its own. -/
abbrev SegmentSource (σ : Type) := σ → Nat → Option (Nat × σ)

/-- `n_allocate(size, 1)`. -/
def poolSource : SegmentSource (NAlc × Headers) := fun s size => do
  let (address, a, m) ← s.1.nAllocateLog s.2 (BitVec.ofNat 32 size)
  return (address, a, m)

/-- The bytes of a record, and the bytes that were asked for the segment in use when it was written. -/
structure SegmentWrite where
  segment : Region
  bytes : Region
deriving DecidableEq, Repr

/-- The length of a record: the `Log_Node`, and the value behind it in the `LONGVAL` build. -/
def LogBuild.length (b : LogBuild) (version : BitVec 32) : Nat :=
  match b with
  | .plain => logNodeSize
  | .longval => logNodeSize + version.toNat

section Append

variable {σ : Type}

/-- `resize` over a source of segments; a null pointer would be written through at once. -/
def DSeg.resizeFrom (source : SegmentSource σ) (s : σ) (asked : Nat) : Option (DSeg × σ) := do
  let (logStart, s) ← source s asked
  if logStart = 0 then none else return (⟨0, logStart, logStart⟩, s)

/-- `append_one` over a source of segments. -/
def DSeg.appendFrom (seg : DSeg) (b : LogBuild) (backend : LogBackend) (source : SegmentSource σ)
    (s : σ) (version : BitVec 32) : Option (SegmentWrite × DSeg × σ) := do
  let asked := backend.asks segmentSize.toNat
  let (seg, s) ← if seg.needsSegment version then resizeFrom source s asked else some (seg, s)
  return (⟨⟨seg.logVec, asked⟩, ⟨seg.vecStart, b.length version⟩⟩, seg.skip (b.length version), s)

/-- What a sequence of `append_one` calls writes. -/
def DSeg.appendAll (b : LogBuild) (backend : LogBackend) (source : SegmentSource σ) :
    DSeg → σ → List (BitVec 32) → Option (List SegmentWrite × DSeg × σ)
  | seg, s, [] => some ([], seg, s)
  | seg, s, version :: rest => do
    let (w, seg, s) ← seg.appendFrom b backend source s version
    let (ws, seg, s) ← appendAll b backend source seg s rest
    return (w :: ws, seg, s)

/-! ### The gap between the two limits -/

/-- A record that stays in the segment in use at offset `offset` and ends behind the bytes that were
asked for. -/
def InGap (b : LogBuild) (backend : LogBackend) (offset : Nat) (version : BitVec 32) : Prop :=
  offset + logNodeSize + version.toNat < DSeg.logEnd ∧
    backend.asks segmentSize.toNat < offset + b.length version

instance (b : LogBuild) (backend : LogBackend) (offset : Nat) (version : BitVec 32) :
    Decidable (InGap b backend offset version) :=
  inferInstanceAs (Decidable (_ ∧ _))

/-- `temp_offset` after a record; `none` before the first segment. -/
def offsetAfter (b : LogBuild) (offset : Option Nat) (version : BitVec 32) : Nat :=
  match offset with
  | none => b.length version
  | some n =>
    if n + logNodeSize + version.toNat < DSeg.logEnd then n + b.length version else b.length version

/-- No record of a sequence falls into the gap. -/
def GapFree (b : LogBuild) (backend : LogBackend) : Option Nat → List (BitVec 32) → Prop
  | _, [] => True
  | offset, version :: rest =>
    (∀ n ∈ offset, ¬ InGap b backend n version) ∧
      GapFree b backend (some (offsetAfter b offset version)) rest

/-! ### Runs -/

variable {b : LogBuild} {backend : LogBackend} {source : SegmentSource σ} {seg seg' : DSeg} {s s' : σ}
  {offset : Option Nat} {version : BitVec 32} {w : SegmentWrite}

/-- The segment in use is filled up to `offset`. -/
def DSeg.FilledTo (seg : DSeg) : Option Nat → Prop
  | none => seg.logVec = 0
  | some n => seg.logVec ≠ 0 ∧ seg.tempOffset = n ∧ seg.vecStart = seg.logVec + n

/-- One record: it lies within its segment unless it falls into the gap. -/
theorem DSeg.FilledTo.append (h : seg.FilledTo offset)
    (hfits : b.length version ≤ backend.asks segmentSize.toNat)
    (heval : seg.appendFrom b backend source s version = some (w, seg', s')) :
    seg'.FilledTo (some (offsetAfter b offset version)) ∧
      (w.bytes.Within w.segment ↔ ∀ n ∈ offset, ¬ InGap b backend n version) := by
  rw [DSeg.appendFrom] at heval
  -- a new segment, in which the record comes first, or the active one
  by_cases hneeds : seg.needsSegment version
  · rw [if_pos hneeds] at heval
    obtain ⟨⟨seg₁, s₁⟩, hopen, heval⟩ := Option.bind_eq_some_iff.mp heval
    obtain ⟨⟨logStart, s₂⟩, -, hopen⟩ := Option.bind_eq_some_iff.mp hopen
    dsimp only at hopen
    split_ifs at hopen with hnull
    simp only [Option.pure_def, Option.some.injEq, Prod.mk.injEq] at hopen
    obtain ⟨rfl, rfl⟩ := hopen
    simp only [Option.pure_def, Option.some.injEq, Prod.mk.injEq] at heval
    obtain ⟨rfl, rfl, rfl⟩ := heval
    -- the segment in use, if there is one, has no room
    have hfull : ∀ n ∈ offset, ¬ n + logNodeSize + version.toNat < DSeg.logEnd := by
      intro n hn
      rw [Option.mem_def] at hn
      subst hn
      obtain ⟨hvec, hoffset, -⟩ := h
      rw [← hoffset]
      exact Nat.not_lt.mpr (hneeds.resolve_right hvec)
    refine ⟨⟨hnull, ?_, ?_⟩, iff_of_true ⟨Nat.le_refl _, Nat.add_le_add_left hfits _⟩ ?_⟩
    · cases offset with
      | none => exact Nat.zero_add _
      | some n => rw [offsetAfter, if_neg (hfull n rfl)]; exact Nat.zero_add _
    · cases offset with
      | none => rfl
      | some n => rw [offsetAfter, if_neg (hfull n rfl)]; rfl
    · exact fun n hn hgap => hfull n hn hgap.1
  · rw [if_neg hneeds] at heval
    simp only [Option.bind_eq_bind, Option.bind_some, Option.pure_def, Option.some.injEq,
      Prod.mk.injEq] at heval
    obtain ⟨rfl, rfl, rfl⟩ := heval
    cases offset with
    | none => exact absurd (Or.inr h) hneeds
    | some n =>
      obtain ⟨hvec, hoffset, hstart⟩ := h
      have hroom : n + logNodeSize + version.toNat < DSeg.logEnd := by
        rw [← hoffset]
        exact Nat.not_le.mp fun hle => hneeds (Or.inl hle)
      refine ⟨⟨hvec, ?_, ?_⟩, ?_⟩
      · rw [offsetAfter, if_pos hroom, ← hoffset]
        rfl
      · rw [offsetAfter, if_pos hroom]
        change seg.vecStart + _ = seg.logVec + (n + _)
        rw [hstart, Nat.add_assoc]
      · -- the record ends below `log_end`, but the segment was asked for with 64 bytes less
        have hwithin : Region.Within ⟨seg.vecStart, b.length version⟩
            ⟨seg.logVec, backend.asks segmentSize.toNat⟩ ↔
            n + b.length version ≤ backend.asks segmentSize.toNat := by
          simp only [Region.Within, Region.limit, hstart]
          omega
        rw [hwithin]
        constructor
        · rintro hle m hm ⟨-, hlt⟩
          rw [Option.mem_def, Option.some.injEq] at hm
          omega
        · intro hgap
          exact Nat.not_lt.mp fun hlt => hgap n rfl ⟨hroom, hlt⟩

theorem DSeg.FilledTo.appendAll {versions : List (BitVec 32)} {ws : List SegmentWrite}
    (h : seg.FilledTo offset)
    (hfits : ∀ version ∈ versions, b.length version ≤ backend.asks segmentSize.toNat)
    (heval : seg.appendAll b backend source s versions = some (ws, seg', s')) :
    (∀ w ∈ ws, w.bytes.Within w.segment) ↔ GapFree b backend offset versions := by
  induction versions generalizing seg s offset ws with
  | nil =>
    rw [DSeg.appendAll, Option.some.injEq, Prod.mk.injEq] at heval
    obtain ⟨rfl, -⟩ := heval
    exact iff_of_true (fun w hw => absurd hw List.not_mem_nil) trivial
  | cons version rest ih =>
    rw [DSeg.appendAll] at heval
    obtain ⟨⟨w, seg₁, s₁⟩, hone, heval⟩ := Option.bind_eq_some_iff.mp heval
    obtain ⟨⟨ws', seg₂, s₂⟩, hrest, heval⟩ := Option.bind_eq_some_iff.mp heval
    simp only [Option.pure_def, Option.some.injEq, Prod.mk.injEq] at heval
    obtain ⟨rfl, rfl, rfl⟩ := heval
    obtain ⟨hnext, hiff⟩ := h.append (hfits version List.mem_cons_self) hone
    have htail := ih hnext (fun v hv => hfits v (List.mem_cons_of_mem _ hv)) hrest
    rw [List.forall_mem_cons, hiff, htail, GapFree]

theorem DSeg.appendAll_returns (hsource : ∀ s size, ∃ logStart s', logStart ≠ 0 ∧
    source s size = some (logStart, s')) (versions : List (BitVec 32)) (seg : DSeg) (s : σ) :
    ∃ ws seg' s', seg.appendAll b backend source s versions = some (ws, seg', s') := by
  induction versions generalizing seg s with
  | nil => exact ⟨_, _, _, rfl⟩
  | cons version rest ih =>
    have hone : ∃ w seg₁ s₁, seg.appendFrom b backend source s version = some (w, seg₁, s₁) := by
      rw [DSeg.appendFrom]
      by_cases hneeds : seg.needsSegment version
      · obtain ⟨logStart, s₁, hnull, hgives⟩ := hsource s (backend.asks segmentSize.toNat)
        rw [if_pos hneeds, DSeg.resizeFrom, hgives]
        simp only [Option.bind_eq_bind, Option.bind_some, if_neg hnull]
        exact ⟨_, _, _, rfl⟩
      · rw [if_neg hneeds]
        exact ⟨_, _, _, rfl⟩
    obtain ⟨w, seg₁, s₁, hone⟩ := hone
    obtain ⟨ws, seg₂, s₂, hrest⟩ := ih seg₁ s₁
    refine ⟨w :: ws, seg₂, s₂, ?_⟩
    simp only [DSeg.appendAll, hone, hrest, Option.bind_eq_bind, Option.bind_some, Option.pure_def]

end Append

/-- With `n_allocate` behind it, this is the `append_one` of the allocator's model. -/
theorem DSeg.appendFrom_pool {seg seg' : DSeg} {a a' : NAlc} {m m' : Headers} {version : BitVec 32}
    {w : SegmentWrite}
    (heval : seg.appendFrom .plain .pool poolSource (a, m) version = some (w, seg', (a', m'))) :
    seg.appendOne a m version = some (w.bytes.base, seg', a', m') := by
  rw [DSeg.appendFrom] at heval
  rw [DSeg.appendOne]
  by_cases hneeds : seg.needsSegment version
  · rw [if_pos hneeds] at heval
    obtain ⟨⟨seg₁, a₁, m₁⟩, hopen, heval⟩ := Option.bind_eq_some_iff.mp heval
    simp only [Option.pure_def, Option.some.injEq, Prod.mk.injEq] at heval
    obtain ⟨rfl, rfl, rfl, rfl⟩ := heval
    obtain ⟨⟨logStart, a₂, m₂⟩, hgives, hopen⟩ := Option.bind_eq_some_iff.mp hopen
    obtain ⟨⟨logStart', a₃, m₃⟩, halloc, hsame⟩ := Option.bind_eq_some_iff.mp hgives
    dsimp only at hopen
    split_ifs at hopen with hnull
    simp only [Option.pure_def, Option.some.injEq, Prod.mk.injEq] at hopen hsame
    obtain ⟨rfl, rfl, rfl⟩ := hopen
    obtain ⟨rfl, rfl, rfl⟩ := hsame
    have hresize : DSeg.resize a m = some (⟨0, logStart', logStart'⟩, a₃, m₃) := by
      rw [DSeg.resize]
      exact Option.bind_eq_some_iff.mpr ⟨_, halloc, rfl⟩
    rw [if_pos hneeds, hresize]
    rfl
  · rw [if_neg hneeds] at heval
    simp only [Option.bind_eq_bind, Option.bind_some, Option.pure_def, Option.some.injEq,
      Prod.mk.injEq] at heval
    obtain ⟨rfl, rfl, rfl, rfl⟩ := heval
    rw [if_neg hneeds]
    rfl

/-! ### Where the gap is -/

theorem not_inGap_pmdk (b : LogBuild) (offset : Nat) (version : BitVec 32) :
    ¬ InGap b .pmdk offset version := by
  rintro ⟨hroom, hbehind⟩
  have hlength : b.length version ≤ logNodeSize + version.toNat := by
    cases b with
    | plain => exact Nat.le_add_right _ _
    | longval => exact Nat.le_refl _
  have hlimit : DSeg.logEnd ≤ LogBackend.pmdk.asks segmentSize.toNat := by decide
  omega

theorem inGap_plain {backend : LogBackend} (hbackend : backend ≠ .pmdk) {offset : Nat}
    (hoffset : logNodeSize ∣ offset) (version : BitVec 32) :
    InGap .plain backend offset version ↔ offset = CHUNK_SIZE - 128 ∧ version.toNat < 32 := by
  have hasks : backend.asks segmentSize.toNat = CHUNK_SIZE - 128 := by
    cases backend with
    | pmdk => exact absurd rfl hbackend
    | cxl => decide
    | pool => decide
  obtain ⟨k, rfl⟩ := hoffset
  rw [InGap, hasks]
  simp only [LogBuild.length, logNodeSize, DSeg.logEnd, CHUNK_SIZE]
  omega

/-- Every byte of every record lies within the bytes that were asked for its segment exactly if no
record falls into the gap between the two limits. -/
theorem log_in_segment_iff {σ : Type} (b : LogBuild) (backend : LogBackend)
    (source : SegmentSource σ) (s : σ) (versions : List (BitVec 32))
    (hfits : ∀ version ∈ versions, b.length version ≤ backend.asks segmentSize.toNat)
    (ws : List SegmentWrite) (seg' : DSeg) (s' : σ)
    (heval : DSeg.empty.appendAll b backend source s versions = some (ws, seg', s')) :
    (∀ w ∈ ws, w.bytes.Within w.segment) ↔ GapFree b backend none versions := by
  have hstart : DSeg.empty.FilledTo none := rfl
  exact hstart.appendAll hfits heval

theorem log_in_segment_iff_two :
    (∀ w ∈ [(⟨⟨0x1000, CHUNK_SIZE - 128⟩, ⟨0x1000, 32⟩⟩ : SegmentWrite),
        ⟨⟨0x1000, CHUNK_SIZE - 128⟩, ⟨0x1020, 32⟩⟩], w.bytes.Within w.segment) ↔
      GapFree .plain .cxl none [8, 8] :=
  log_in_segment_iff .plain .cxl (fun s _ => some (0x1000, s)) () [8, 8]
    (fun _ _ => (by decide : logNodeSize ≤ LogBackend.cxl.asks segmentSize.toNat)) _
    ⟨64, 0x1000, 0x1040⟩ () rfl

theorem not_gapFree_replicate (k : Nat) {offset : Nat} (hend : offset + 32 * k = CHUNK_SIZE - 128) :
    ¬ GapFree .plain .cxl (some offset) (List.replicate (k + 1) 8) := by
  have hlen : (8 : BitVec 32).toNat = 8 := rfl
  induction k generalizing offset with
  | zero =>
    rintro ⟨hno, -⟩
    apply hno offset rfl
    rw [Nat.mul_zero, Nat.add_zero] at hend
    subst hend
    decide
  | succ k ih =>
    rintro ⟨-, hrest⟩
    have hroom : offset + logNodeSize + (8 : BitVec 32).toNat < DSeg.logEnd := by
      simp only [hlen, logNodeSize, DSeg.logEnd, CHUNK_SIZE] at hend ⊢
      omega
    rw [offsetAfter, if_pos hroom] at hrest
    apply ih _ hrest
    rw [LogBuild.length, logNodeSize, Nat.add_assoc, ← hend, Nat.mul_succ, Nat.add_comm 32]

/-- The 2097149th record of an 8-byte value ends 32 bytes behind the block that `malloc` was asked
for. -/
theorem log_outgrows_segment :
    ∃ ws seg', DSeg.empty.appendAll .plain .cxl (fun s _ => some (0x1000, s)) ()
        (List.replicate 2097149 8) = some (ws, seg', ()) ∧
      ¬ ∀ w ∈ ws, w.bytes.Within w.segment := by
  obtain ⟨ws, seg', s', heval⟩ := @DSeg.appendAll_returns Unit .plain .cxl
    (fun s _ => some (0x1000, s)) (fun s _ => ⟨0x1000, s, by decide, rfl⟩)
    (List.replicate 2097149 8) DSeg.empty ()
  refine ⟨ws, seg', heval, fun hwithin => ?_⟩
  have hstart : DSeg.empty.FilledTo none := rfl
  have hfits : ∀ version ∈ List.replicate 2097149 (8 : BitVec 32),
      LogBuild.plain.length version ≤ LogBackend.cxl.asks segmentSize.toNat := by
    intro version _
    exact (by decide : logNodeSize ≤ LogBackend.cxl.asks segmentSize.toNat)
  have hfree := (hstart.appendAll hfits heval).mp hwithin
  rw [List.replicate_succ, GapFree] at hfree
  exact not_gapFree_replicate 2097147 (by decide) hfree.2

end ZBTree
