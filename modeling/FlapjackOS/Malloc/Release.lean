import FlapjackOS.Malloc.Operations

/-! `free` returns a block to the zone and merges it with free neighbours on both sides. -/

namespace FlapjackOS.Malloc

open Machine Tiling

variable {arch : Arch} {memory : Memory} {zone limit x : Nat} {block removed : Block}
  {front rest blocks : List Block}

theorem Layout.setInuse (held : Layout arch memory zone limit (front ++ block :: rest)) :
    Layout arch (Malloc.setInuse arch memory (headerAfter arch zone front) flag)
      zone limit (front ++ { block with inuse := flag } :: rest) := by
  refine held.replace (fun x early => setInuse_outside (.inl early)) (setInuse_chain held.suffix) rfl ?_
  intro address member
  refine held.aligned address ?_
  rw [addresses_append]
  exact List.mem_append_right _ member

/-- Extending a block over the one behind it. -/
theorem Layout.absorb (held : Layout arch memory zone limit (front ++ block :: removed :: rest))
    (base_eq : base = headerAfter arch zone front) :
    Layout arch (Malloc.absorb arch memory base (base + sizeofBlock arch + block.size)
        (next arch memory (base + sizeofBlock arch + block.size))) zone limit
      (front ++ ⟨block.size + (removed.size + sizeofBlock arch), block.inuse⟩ :: rest) ∧
    ∀ x, Clear arch base x →
      ClearOf arch (base + sizeofBlock arch + block.size + sizeofBlock arch + removed.size) rest x →
      Malloc.absorb arch memory base (base + sizeofBlock arch + block.size)
        (next arch memory (base + sizeofBlock arch + block.size)) x = memory x := by
  subst base_eq
  have chain := held.suffix
  have outside (x : Nat) (clear : Clear arch (headerAfter arch zone front) x)
      (headers : ClearOf arch (headerAfter arch zone front +
        sizeofBlock arch + block.size + sizeofBlock arch + removed.size) rest x) :=
    @absorb_outside arch memory _ (headerAfter arch zone front +
      sizeofBlock arch + block.size) _ x clear (next_clear chain.2 headers)
  refine ⟨held.replace (fun x early => ?_) (absorb_chain chain held.suffix_fits.le) ?_ ?_, outside⟩
  · exact outside x (.inl early) (clearOf_below (by omega))
  · simp only [span]
    omega
  · intro address member
    refine held.aligned address ?_
    rw [addresses_append]
    refine List.mem_append_right _ ?_
    simp only [addresses, List.mem_cons] at member ⊢
    rcases member with same | later
    · exact .inl same
    · right; right
      rwa [show ∀ base, base + sizeofBlock arch + block.size + sizeofBlock arch + removed.size =
        base + sizeofBlock arch + (block.size + (removed.size + sizeofBlock arch)) by intro; omega]

/-- Merging a free block with what follows it. -/
theorem Layout.mergeFollowing (held : Layout arch memory zone limit (front ++ block :: rest))
    (idle : block.inuse = false)
    (base_eq : base = headerAfter arch zone front) :
    Layout arch (Malloc.mergeFollowing arch memory base (next arch memory base)) zone limit
      (front ++ pushFree (sizeofBlock arch) block.size rest) ∧
    ∀ x, Clear arch base x → ClearOf arch (base + sizeofBlock arch + block.size) rest x →
      Malloc.mergeFollowing arch memory base (next arch memory base) x = memory x := by
  subst base_eq
  have chain := held.suffix
  have merged := mergeFollowing_chain chain idle held.suffix_fits.le
  have sameSpan := @span_pushFree (sizeofBlock arch) block.size rest
  have aligned : ∀ address ∈ addresses (sizeofBlock arch) (headerAfter arch zone front)
      (pushFree (sizeofBlock arch) block.size rest), address % 4 = 0 := by
    intro address member
    refine held.aligned address ?_
    rw [addresses_append]
    refine List.mem_append_right _ ?_
    simp only [addresses, List.mem_cons]
    exact addresses_pushFree member
  obtain ⟨first, tail, shape, _⟩ := pushFree_cons (sizeofBlock arch) block.size rest
  rw [shape] at merged sameSpan aligned ⊢
  refine ⟨held.replace (fun x early => ?_) merged sameSpan aligned, fun x clear headers => ?_⟩
  · exact mergeFollowing_outside chain (.inl early) (clearOf_below (by omega))
  · exact mergeFollowing_outside chain clear headers

/-- What is left in use after a block went away. -/
theorem served_released
    (layout : Layout arch changed zone limit new) (coalesced : Coalesced new)
    (frame : ∀ x, ClearOf arch (firstBlock arch zone) (front ++ block :: rest) x →
      changed x = memory x)
    (members : ∀ payload extent, Allocated arch zone new payload extent ↔
      Allocated arch zone front payload extent ∨ InUse (sizeofBlock arch)
        (headerAfter arch zone front + sizeofBlock arch + block.size) rest payload extent) :
    Served arch zone limit memory changed (front ++ block :: rest) new
      (headerAfter arch zone front + sizeofBlock arch) none where
  represents := ⟨layout, coalesced⟩
  rebound := by
    intro payload extent
    refine @rebound_of_members _ _ front _ _ _ _ _ _ rest _ (Nat.le_refl _) (Nat.le_add_right _ block.size)
      ?_ (fun other => ?_)
    · rw [members]
      simp
    · simp only [allocated_append, InUse, other, false_and, and_false, false_or]
  kept := fun _ _ used _ x low high => frame x (used.clearOf low high)

/-- `free` on a block that has no free block in front of it. -/
theorem Represents.free_here (held : Represents arch memory zone limit (front ++ block :: rest))
    (bounded : front = [] ∨ ∃ init before, front = init ++ [before] ∧ before.inuse = true) :
    Served arch zone limit memory
      (mergeFollowing arch (setInuse arch memory (headerAfter arch zone front) false)
        (headerAfter arch zone front)
        (next arch (setInuse arch memory (headerAfter arch zone front) false)
          (headerAfter arch zone front)))
      (front ++ block :: rest) (front ++ pushFree (sizeofBlock arch) block.size rest)
      (headerAfter arch zone front + sizeofBlock arch) none := by
  have marked := @Layout.setInuse _ _ _ _ _ _ _ false held.toLayout
  obtain ⟨layout, same⟩ := marked.mergeFollowing rfl rfl
  have behind : Coalesced (pushFree (sizeofBlock arch) block.size rest) :=
    coalesced_pushFree held.coalesced.of_rest.tail
  refine served_released layout ?_ (fun x clear => ?_) (fun payload extent => ?_)
  · rcases bounded with empty | ⟨init, before, shape, used⟩
    · rw [empty]
      exact behind
    · subst shape
      rw [List.append_assoc]
      exact (coalesced_used used).mpr ⟨held.coalesced.of_front.of_front, behind⟩
  · obtain ⟨_, headers⟩ := clearOf_append.mp clear
    obtain ⟨own, later⟩ := clearOf_cons.mp headers
    rw [same x own later, setInuse_outside own]
  · simp only [allocated_append, inUse_pushFree]

/-- `free` on a block behind a free one, which takes it over first. -/
theorem Represents.free_before
    (held : Represents arch memory zone limit (front ++ before :: block :: rest))
    (idle : before.inuse = false) (base_eq : base = headerAfter arch zone front)
    (marked_eq : marked = setInuse arch memory (base + sizeofBlock arch + before.size) false)
    (merged_eq : merged = absorb arch marked base (base + sizeofBlock arch + before.size)
      (next arch marked (base + sizeofBlock arch + before.size))) :
    next arch merged base = next arch marked (base + sizeofBlock arch + before.size) ∧
    Served arch zone limit memory (mergeFollowing arch merged base (next arch merged base))
      (front ++ before :: block :: rest)
      (front ++ pushFree (sizeofBlock arch) (before.size + (block.size + sizeofBlock arch)) rest)
      (base + sizeofBlock arch + before.size + sizeofBlock arch) none := by
  have split : front ++ before :: block :: rest = (front ++ [before]) ++ block :: rest := by simp
  have place : headerAfter arch zone (front ++ [before]) = base + sizeofBlock arch + before.size := by
    rw [headerAfter_concat, base_eq]
  have markedLayout : Layout arch marked zone limit (front ++ before :: ⟨block.size, false⟩ :: rest) := by
    have layout := @Layout.setInuse _ _ _ _ _ _ _ false (split ▸ held.toLayout)
    rw [place, ← marked_eq] at layout
    simpa using layout
  obtain ⟨mergedLayout, mergedSame⟩ := markedLayout.absorb base_eq
  rw [← merged_eq] at mergedLayout mergedSame
  obtain ⟨layout, same⟩ := mergedLayout.mergeFollowing idle base_eq
  have link : next arch merged base =
      next arch marked (base + sizeofBlock arch + before.size) := by
    have near := mergedLayout.suffix.next
    have far := Chain.next markedLayout.suffix.2
    rw [← base_eq] at near far
    rw [near, far]
    simp only
    congr 1
    omega
  refine ⟨link, ?_⟩
  have behind : Coalesced rest := held.coalesced.of_rest.tail.tail
  rw [split, ← place]
  refine served_released layout ?_ (fun x clear => ?_) (fun payload extent => ?_)
  · obtain ⟨first, tail, shape, flag⟩ := pushFree_cons (sizeofBlock arch)
      (before.size + (block.size + sizeofBlock arch)) rest
    have pushed : Coalesced (pushFree (sizeofBlock arch)
        (before.size + (block.size + sizeofBlock arch)) rest) := coalesced_pushFree behind
    rw [shape] at pushed ⊢
    exact held.coalesced.reflag (flag.trans idle.symm) pushed
  · obtain ⟨early, headers⟩ := clearOf_append.mp clear
    rw [← headerAfter, place] at headers
    obtain ⟨own, later⟩ := clearOf_cons.mp headers
    obtain ⟨preceding, _⟩ := clearOf_cons.mp (clearOf_append.mp early).2
    rw [← headerAfter, ← base_eq] at preceding
    rw [same x preceding ?_, mergedSame x preceding later, marked_eq, setInuse_outside own]
    rwa [show base + sizeofBlock arch + (before.size + (block.size + sizeofBlock arch)) =
      base + sizeofBlock arch + before.size + sizeofBlock arch + block.size by omega]
  · rw [place]
    simp only [allocated_append, inUse_pushFree, InUse, idle, Bool.false_eq_true, false_and,
      or_false, ← base_eq]
    rw [show base + sizeofBlock arch + (before.size + (block.size + sizeofBlock arch)) =
      base + sizeofBlock arch + before.size + sizeofBlock arch + block.size by omega]

/-- The body of `free` behind its assertions. -/
theorem free_found (present : ptr ≠ 0) (back : arch.sub ptr (sizeofBlock arch) = address)
    (found : foundBlock arch memory zone address = some true)
    (flag : inuse arch memory address = true)
    (marked_eq : marked = setInuse arch memory address false) :
    free arch memory zone ptr = some
      (if prev arch marked address ≠ 0 ∧ inuse arch marked (prev arch marked address) = false then
        mergeFollowing arch
          (absorb arch marked (prev arch marked address) address (next arch marked address))
          (prev arch marked address) (next arch marked address)
      else mergeFollowing arch marked address (next arch marked address)) := by
  subst marked_eq
  simp only [free, if_neg present, back, found, flag, Option.bind_eq_bind, Option.bind_some,
    Bool.true_eq_false, or_self, if_false]
  split
  · rfl
  · rfl

theorem Represents.free (held : Represents arch memory zone limit blocks)
    (used : Allocated arch zone blocks ptr bytes) :
    ∃ changed new, Malloc.free arch memory zone ptr = some changed ∧
      Served arch zone limit memory changed blocks new ptr none := by
  have found := held.foundBlock used
  obtain ⟨front, block, rest, shape, flag, place, _⟩ := used.focus
  subst shape place
  have first := held.first_pos
  have wide := sizeofBlock_pos arch
  have inside := held.suffix_fits
  have chain := held.suffix
  simp only [span] at inside
  rw [Nat.add_sub_cancel] at found
  have back : arch.sub (headerAfter arch zone front + sizeofBlock arch) (sizeofBlock arch) =
      headerAfter arch zone front := by
    rw [Arch.sub_of_le (by omega) (by omega), Nat.add_sub_cancel]
  have body := free_found (by omega) back found (chain.inuse.trans flag) rfl
  have preceding := Chain.prev (@setInuse_chain _ _ _ _ _ _ chain false)
  rcases List.eq_nil_or_concat front with empty | ⟨init, before, shape⟩
  · subst empty
    refine ⟨_, _, ?_, held.free_here (.inl rfl)⟩
    rw [body, if_neg (by rw [preceding]; simp [lastHeader])]
  · rw [List.concat_eq_append] at shape
    subst shape
    rw [lastHeader_append] at preceding
    have shape : (init ++ [before]) ++ block :: rest = init ++ before :: block :: rest := by simp
    have marked : inuse arch (setInuse arch memory (headerAfter arch zone (init ++ [before])) false)
        (headerAfter arch zone init) = before.inuse := by
      have layout := @Layout.setInuse _ _ _ _ _ _ _ false held.toLayout
      rw [List.append_assoc] at layout
      exact layout.suffix.inuse
    rw [preceding, marked] at body
    by_cases idle : before.inuse = false
    · rw [if_pos ⟨by omega, idle⟩] at body
      rw [shape] at held ⊢
      obtain ⟨link, served⟩ := held.free_before idle rfl rfl rfl
      rw [headerAfter_concat] at body ⊢
      rw [link] at served
      exact ⟨_, _, body, served⟩
    · rw [if_neg (fun merging => idle merging.2)] at body
      have beforeUsed : before.inuse = true := by simpa using idle
      exact ⟨_, _, body, held.free_here (.inr ⟨init, before, rfl, beforeUsed⟩)⟩

end FlapjackOS.Malloc
