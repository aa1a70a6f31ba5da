import FlapjackOS.Malloc.Invariant

/-! One specification for each operation of the zone. -/

namespace FlapjackOS.Malloc

open Machine Tiling

/-- `passed` is given up and `result` is handed out with its payload size. -/
structure Served (arch : Arch) (zone limit : Nat) (memory changed : Memory)
    (blocks new : List Block) (passed : Nat) (result : Option (Nat × Nat)) : Prop where
  represents : Represents arch changed zone limit new
  rebound : ∀ payload bytes, Allocated arch zone new payload bytes ↔
    result = some (payload, bytes) ∨ (payload ≠ passed ∧ Allocated arch zone blocks payload bytes)
  kept : ∀ payload bytes, Allocated arch zone blocks payload bytes → payload ≠ passed →
    ∀ x, payload ≤ x → x < payload + bytes → changed x = memory x

/-- A payload that was handed out is handed on at once. -/
theorem Served.trans (first : Served arch zone limit memory middle blocks mid passed (some (payload, bytes)))
    (second : Served arch zone limit middle changed mid new payload result)
    (fresh : ∀ extent, Allocated arch zone blocks payload extent → payload = passed) :
    Served arch zone limit memory changed blocks new passed result where
  represents := second.represents
  rebound := by
    intro other extent
    rw [second.rebound, first.rebound]
    simp only [Option.some.injEq, Prod.mk.injEq]
    constructor
    · rintro (given | ⟨different, ⟨same, _⟩ | old⟩)
      · exact .inl given
      · exact (different same.symm).elim
      · exact .inr old
    · rintro (given | ⟨different, used⟩)
      · exact .inl given
      · refine .inr ⟨fun same => different ?_, .inr ⟨different, used⟩⟩
        subst same
        exact fresh extent used
  kept := by
    intro other extent used different x low high
    have separate : other ≠ payload := by
      intro same
      subst same
      exact different (fresh extent used)
    have still := (first.rebound other extent).mpr (.inr ⟨different, used⟩)
    rw [second.kept other extent still separate x low high]
    exact first.kept other extent used different x low high

/-- Blocks in front of and behind the edited part stay in use as they were. -/
theorem rebound_of_members (low : headerAfter arch zone front + sizeofBlock arch ≤ passed)
    (high : passed ≤ stop)
    (after : Allocated arch zone new payload bytes ↔ Allocated arch zone front payload bytes ∨
      result = some (payload, bytes) ∨ InUse (sizeofBlock arch) stop rest payload bytes)
    (before : payload ≠ passed → (Allocated arch zone blocks payload bytes ↔
      Allocated arch zone front payload bytes ∨ InUse (sizeofBlock arch) stop rest payload bytes)) :
    Allocated arch zone new payload bytes ↔
      result = some (payload, bytes) ∨ (payload ≠ passed ∧ Allocated arch zone blocks payload bytes) := by
  have wide := sizeofBlock_pos arch
  rw [after]
  constructor
  · rintro (early | given | late)
    · have bounds := early.bounds
      have different : payload ≠ passed := by omega
      exact .inr ⟨different, (before different).mpr (.inl early)⟩
    · exact .inl given
    · have bounds := inUse_bounds late
      have different : payload ≠ passed := by omega
      exact .inr ⟨different, (before different).mpr (.inr late)⟩
  · rintro (given | ⟨different, used⟩)
    · exact .inr (.inl given)
    · rcases (before different).mp used with early | late
      · exact .inl early
      · exact .inr (.inr late)

section
variable {arch : Arch} {memory changed : Memory} {zone limit bytes x : Nat} {block : Block}
  {front rest : List Block}

/-- Other payloads in use are out of reach of a split of `block`. -/
theorem Allocated.elsewhere
    (used : Allocated arch zone (front ++ block :: rest) payload extent)
    (other : payload ≠ headerAfter arch zone front + sizeofBlock arch)
    (low : payload ≤ x) (high : x < payload + extent) :
    KeptBySplit arch (headerAfter arch zone front) bytes block rest x ∧
      Clear arch (headerAfter arch zone front) x := by
  rcases allocated_append.mp used with early | ⟨_, place, _⟩ | late
  · have bounds := early.bounds
    exact ⟨⟨.inl (by omega), clearOf_below (by omega)⟩, .inl (by omega)⟩
  · exact (other place).elim
  · have bounds := inUse_bounds late
    refine ⟨⟨.inr (.inr (by omega)), fun address member => ?_⟩, .inr (by omega)⟩
    rcases inUse_clear late member with before | behind
    · exact .inl (by omega)
    · exact .inr (by omega)

section
variable (held : Layout arch memory zone limit (front ++ block :: rest))
  (frontCoalesced : Coalesced front) (restCoalesced : Coalesced rest)
include held frontCoalesced restCoalesced

/-- Handing out the front of a block, whether it was free or in use before.
`marked` is the block with its flag set. -/
theorem Layout.refit (room : bytes ≤ marked.size) (multiple : bytes % 4 = 0)
    (flag : marked.inuse = true) (extent : marked.size = block.size)
    (suffix : Chain arch changed (lastHeader arch 0 (firstBlock arch zone) front) 0
      (headerAfter arch zone front) (splitFront (sizeofBlock arch) marked bytes rest))
    (same : ∀ x, KeptBySplit arch (headerAfter arch zone front) bytes block rest x →
      Clear arch (headerAfter arch zone front) x → changed x = memory x) :
    Served arch zone limit memory changed (front ++ block :: rest)
      (front ++ splitFront (sizeofBlock arch) marked bytes rest)
      (headerAfter arch zone front + sizeofBlock arch)
      (some (headerAfter arch zone front + sizeofBlock arch,
        splitSize (sizeofBlock arch) marked bytes)) where
  represents := by
    have width := sizeofBlock_aligned arch
    have own := held.header_aligned
    have aligned : ∀ address ∈ addresses (sizeofBlock arch) (headerAfter arch zone front)
        (splitFront (sizeofBlock arch) marked bytes rest), address % 4 = 0 := by
      intro address member
      rcases addresses_splitFront room member with old | fresh
      · refine held.aligned address ?_
        rw [addresses_append]
        refine List.mem_append_right _ ?_
        simpa only [addresses, extent] using old
      · omega
    have behind : Coalesced (splitFront (sizeofBlock arch) marked bytes rest) :=
      coalesced_splitFront flag restCoalesced
    have sameSpan : span (sizeofBlock arch) (splitFront (sizeofBlock arch) marked bytes rest) =
        span (sizeofBlock arch) (block :: rest) := by
      rw [span_splitFront room]
      simp only [span, extent]
    obtain ⟨first, tail, shape, firstFlag⟩ := splitFront_cons (sizeofBlock arch) marked bytes rest
    rw [shape] at suffix aligned behind sameSpan ⊢
    have firstUsed := firstFlag.trans flag
    have coalesced := (coalesced_used firstUsed).mpr
      ⟨frontCoalesced, (coalesced_cons_used firstUsed).mp behind⟩
    refine ⟨held.replace (fun x early => ?_) suffix sameSpan aligned, coalesced⟩
    exact same x ⟨.inl early, clearOf_below (by omega)⟩ (.inl early)
  rebound := by
    intro payload bytes
    refine @rebound_of_members _ _ front _ _ _ _ _ _ rest _ (Nat.le_refl _) (Nat.le_add_right _ block.size)
      ?_ (fun other => ?_)
    · simp only [allocated_append, Option.some.injEq, Prod.mk.injEq]
      rw [inUse_splitFront room flag, extent]
      simp only [eq_comm]
    · simp only [allocated_append, InUse, other, false_and, and_false, false_or]
  kept := by
    intro payload bytes used other x low high
    obtain ⟨untouched, clear⟩ := used.elsewhere other low high
    exact same x untouched clear

/-- Taking the front of a block and marking it in use. The flag is set after
the split, which only reads the flag of the block behind. -/
theorem Layout.take (room : bytes ≤ block.size) (multiple : bytes % 4 = 0) :
    ∃ changed, considerSplittingBlock arch memory (headerAfter arch zone front) bytes = some changed ∧
      Served arch zone limit memory (setInuse arch changed (headerAfter arch zone front) true)
        (front ++ block :: rest)
        (front ++ splitFront (sizeofBlock arch) ⟨block.size, true⟩ bytes rest)
        (headerAfter arch zone front + sizeofBlock arch)
        (some (headerAfter arch zone front + sizeofBlock arch,
          splitSize (sizeofBlock arch) block bytes)) ∧
      ∀ x, KeptBySplit arch (headerAfter arch zone front) bytes block rest x →
        Clear arch (headerAfter arch zone front) x →
        setInuse arch changed (headerAfter arch zone front) true x = memory x := by
  have width := sizeofBlock_aligned arch
  have own := held.header_aligned
  obtain ⟨changed, returned, split, same⟩ :=
    considerSplittingBlock_chain held.suffix room (by omega) held.suffix_fits.le
  have marked (x : Nat) (kept : KeptBySplit arch (headerAfter arch zone front) bytes block rest x)
      (clear : Clear arch (headerAfter arch zone front) x) :
      setInuse arch changed (headerAfter arch zone front) true x = memory x := by
    rw [setInuse_outside clear, same x kept]
  have fits : bytes ≤ (⟨block.size, true⟩ : Block).size := room
  refine ⟨changed, returned, held.refit frontCoalesced restCoalesced fits multiple rfl rfl ?_ marked, marked⟩
  unfold splitFront at split ⊢
  split_ifs at split ⊢
  all_goals exact setInuse_chain split

end

end

end FlapjackOS.Malloc
