import FlapjackOS.Interrupts.Pic

/-! Which interrupts are acknowledged properly. -/

namespace FlapjackOS.Interrupts

open Runs

/-- The levels in service, the highest priority first. -/
structure Tracks (inService : BitVec 8) (levels : List (Fin 8)) : Prop where
  bits : ∀ level : Fin 8, inService.getLsbD level = true ↔ level ∈ levels
  sorted : levels.Pairwise (· < ·)

theorem Tracks.served (tracks : Tracks inService levels) (delivered : delivers inService level) :
    Tracks (serve inService level) (level :: levels) where
  bits other := by
    rw [serve, BitVec.getLsbD_or, BitVec.getLsbD_twoPow, Bool.or_eq_true, tracks.bits, List.mem_cons, or_comm]
    simp [Fin.ext_iff, eq_comm]
  sorted := by
    refine List.pairwise_cons.mpr ⟨fun other member => ?_, tracks.sorted⟩
    by_contra higher
    have clear := of_decide_eq_true delivered other (not_lt.mp higher)
    rw [(tracks.bits other).mpr member] at clear
    cases clear

/-- An EOI clears the bit of the first level. -/
theorem Tracks.retired (tracks : Tracks inService (level :: levels)) :
    highest inService = some level ∧ Tracks (endOfInterrupt inService) levels := by
  obtain ⟨lower, sorted⟩ := List.pairwise_cons.mp tracks.sorted
  have found : highest inService = some level := by
    rw [highest, List.find?_eq_some_iff_getElem]
    refine ⟨(tracks.bits level).mpr List.mem_cons_self, level, by simp, by simp, fun i above => ?_⟩
    by_contra served
    rcases List.mem_cons.mp ((tracks.bits ⟨i, by omega⟩).mp (by simpa using served)) with same | member
    · exact absurd same (ne_of_lt above)
    · exact absurd (lower _ member) (not_lt.mpr (le_of_lt above))
  refine ⟨found, fun other => ?_, sorted⟩
  have absent : level ∉ levels := fun member => lt_irrefl level (lower level member)
  have listed := tracks.bits other
  rw [endOfInterrupt, found]
  by_cases same : other = level
  · subst same
    simp [absent]
  · have different : (level : Nat) ≠ other := fun equal => same (Fin.ext equal.symm)
    rw [List.mem_cons, or_iff_right same] at listed
    rw [← listed, BitVec.getLsbD_and, BitVec.getLsbD_not, BitVec.getLsbD_twoPow]
    simp [different]

/-- The EOI for the chip has not been sent yet. -/
def Phase.due : Phase → Chip → Bool
  | .entered, _ => true
  | .slaveEoi, _ => true
  | .masterEoi, .pic1 => true
  | _, _ => false

/-- The bit that a dispatch has not acknowledged yet. -/
def Activation.owed (activation : Activation) (chip : Chip) : Option (Fin 8) :=
  if activation.phase.due chip then activation.source.bit chip else none

def levels (chip : Chip) (active : List Activation) : List (Fin 8) := active.filterMap (·.owed chip)

/-- What is in service is owed by the active dispatches. -/
def Accounts (state : State) : Prop := ∀ chip, Tracks (state.inService chip) (levels chip state.active)

/-- The EOI has cleared the bit of the interrupt it was sent for. -/
def Ack.Proper (ack : Ack) : Prop := ack.retired ≠ none ∧ ack.source.bit ack.chip = ack.retired

theorem levels_cons (activation : Activation) (below : List Activation) (chip : Chip) :
    levels chip (activation :: below) = (activation.owed chip).toList ++ levels chip below := by
  rw [levels, List.filterMap_cons]
  cases activation.owed chip <;> rfl

theorem spurious_iff (state : State) (irq : BitVec 32) :
    state.Spurious irq ↔ irq = 7 ∧ (state.inService .pic1).getLsbD 7 = false := by
  refine and_congr_right fun seven => ?_
  subst seven
  have mask : (1 <<< (7 : BitVec 32).toNat : BitVec 16) = BitVec.twoPow 16 7 := by decide
  have low : state.getIsr.getLsbD 7 = (state.inService .pic1).getLsbD 7 := by
    rw [State.getIsr, BitVec.getLsbD_append]
    rfl
  rw [mask, BitVec.and_twoPow, low]
  cases (state.inService .pic1).getLsbD 7 <;> decide

theorem number_irq (line : Fin 16) : (Source.irq line).number.toNat = line := by
  revert line
  decide

theorem number_exception (vector : Fin 32) : 8 ≤ (Source.exception vector).number.toNat := by
  revert vector
  decide

theorem accounts_arrive (accounts : Accounts state) (arrived : state.arrive source = some next) :
    Accounts next := by
  unfold State.arrive at arrived
  split at arrived
  case isFalse => cases arrived
  case isTrue possible =>
    cases arrived
    intro chip
    rw [levels_cons]
    change Tracks ((source.bit chip).elim _ _) ((source.bit chip).toList ++ _)
    cases own : source.bit chip with
    | none => exact accounts chip
    | some level =>
      refine (accounts chip).served ?_
      cases source with
      | irq line =>
        simp only [Source.possible, Bool.and_eq_true] at possible
        cases chip with
        | pic1 => simpa [own] using possible.1.2
        | pic2 => simpa [own] using possible.2
      | spurious7 => cases chip <;> cases own
      | spurious15 =>
        simp only [Source.possible, Bool.and_eq_true] at possible
        cases chip with
        | pic1 =>
          cases own
          exact possible.1
        | pic2 => cases own
      | exception vector => cases chip <;> cases own

section
variable (dispatcher : Dispatcher) (state : State) (activation : Activation) (below : List Activation)

/-- What a step of the running dispatch does. -/
inductive Advances : State → Prop
  | dismiss (phase : activation.phase = .entered) (spurious : state.Spurious activation.source.number) :
      Advances (state.setActive ({ activation with phase := .leaving } :: below))
  | slave (phase : activation.phase = .entered) (genuine : ¬ state.Spurious activation.source.number)
      (high : 8 ≤ activation.source.number.toNat) :
      Advances (state.setActive ({ activation with phase := .slaveEoi } :: below))
  | master (phase : activation.phase = .entered) (genuine : ¬ state.Spurious activation.source.number)
      (low : activation.source.number.toNat < 8) :
      Advances (state.setActive ({ activation with phase := .masterEoi } :: below))
  | slaveEoi (phase : activation.phase = .slaveEoi) :
      Advances ((state.sendEoi activation.source .pic2).setActive ({ activation with phase := .masterEoi } :: below))
  | masterEoi (phase : activation.phase = .masterEoi) :
      Advances ((state.sendEoi activation.source .pic1).setActive ({ activation with phase := .lookup } :: below))
  | call (phase : activation.phase = .lookup) (handler : dispatcher.handlers activation.source.vector = true) :
      Advances (state.setActive
        ({ activation with phase := .leaving, calls := activation.calls + 1 } :: below))
  | skip (phase : activation.phase = .lookup) (handler : dispatcher.handlers activation.source.vector = false) :
      Advances (state.setActive ({ activation with phase := .leaving } :: below))
  | leave (phase : activation.phase = .leaving) :
      Advances { state with
        active := below, completed := (activation.source, activation.calls) :: state.completed }

end

theorem advance_cases (advanced : state.advance dispatcher = some next) :
    ∃ activation below, state.active = activation :: below ∧
      Advances dispatcher state activation below next := by
  unfold State.advance at advanced
  split at advanced
  · cases advanced
  · rename_i activation below active
    refine ⟨activation, below, active, ?_⟩
    dsimp only at advanced
    split at advanced
    case h_1 phase =>
      split_ifs at advanced with spurious high
      · cases advanced
        exact .dismiss phase spurious
      · cases advanced
        exact .slave phase spurious high
      · cases advanced
        exact .master phase spurious (not_le.mp high)
    case h_2 phase =>
      cases advanced
      exact .slaveEoi phase
    case h_3 phase =>
      cases advanced
      exact .masterEoi phase
    case h_4 phase =>
      split_ifs at advanced with handler panics
      · cases advanced
        exact .call phase handler
      · cases advanced
        exact .skip phase (Bool.eq_false_of_not_eq_true handler)
    case h_5 phase =>
      cases advanced
      exact .leave phase

theorem number_eq_seven (seven : Source.number source = 7) : source = .irq 7 ∨ source = .spurious7 := by
  cases source with
  | irq line =>
    have line_eq := number_irq line
    rw [seven] at line_eq
    exact .inl (congrArg Source.irq (Fin.ext line_eq.symm))
  | spurious7 => exact .inr rfl
  | spurious15 => exact absurd seven (by decide)
  | exception vector =>
    have large := number_exception vector
    rw [seven] at large
    exact absurd large (by decide)

theorem bit_pic2_of_low (low : (Source.number source).toNat < 8) : source.bit .pic2 = none := by
  cases source with
  | irq line =>
    rw [number_irq] at low
    exact if_neg (not_le.mpr low)
  | _ => rfl

theorem Accounts.clear_iff (accounts : Accounts state) :
    (state.inService .pic1).getLsbD 7 = false ↔ 7 ∉ levels .pic1 state.active := by
  rw [← (accounts .pic1).bits 7, Bool.not_eq_true]
  rfl

section
variable (accounts : Accounts state) (active : state.active = activation :: below)
include accounts active

/-- As long as the accounts are right, `clear` recognises IRQ 7. -/
theorem dismissed_eq (phase : activation.phase = .entered)
    (spurious : state.Spurious activation.source.number) :
    activation.source = .spurious7 := by
  obtain ⟨seven, clear⟩ := (spurious_iff state _).mp spurious
  rcases number_eq_seven seven with genuine | known
  · have owed : activation.owed .pic1 = some 7 := by
      rw [Activation.owed, phase, genuine]
      rfl
    refine absurd ?_ (accounts.clear_iff.mp clear)
    rw [active, levels_cons, owed]
    exact List.mem_cons_self
  · exact known

theorem Accounts.replace (same : ∀ chip, replacement.owed chip = activation.owed chip) :
    Accounts (state.setActive (replacement :: below)) := by
  intro chip
  have tracks := accounts chip
  rw [active, levels_cons, ← same, ← levels_cons] at tracks
  exact tracks

/-- The bit of the running dispatch has the highest priority. -/
theorem Accounts.retired (owed : activation.owed chip = some level) :
    highest (state.inService chip) = some level ∧
      Tracks (endOfInterrupt (state.inService chip)) (levels chip below) := by
  have tracks := accounts chip
  rw [active, levels_cons, owed] at tracks
  exact tracks.retired

end

theorem improper_of_none (none : Source.bit source chip = none) :
    ¬ Ack.Proper { source, chip, retired } := by
  rintro ⟨some, same⟩
  exact some (same.symm.trans none)

theorem owed_of_due (due : Phase.due phase chip = true) (own : Source.bit source chip = some level) :
    Activation.owed { source, phase, calls } chip = some level := by
  rw [Activation.owed, due, if_pos rfl, own]

theorem Accounts.eoi_or_improper (accounts : Accounts state) (active : state.active = activation :: below)
    (due : activation.phase.due chip = true) (paid : replacement.owed chip = none)
    (same : ∀ other, other ≠ chip → replacement.owed other = activation.owed other) :
    Accounts ((state.sendEoi activation.source chip).setActive (replacement :: below)) ∨
      ∃ ack ∈ ((state.sendEoi activation.source chip).setActive (replacement :: below)).acks, ¬ ack.Proper := by
  cases own : activation.source.bit chip with
  | none => exact .inr ⟨_, List.mem_cons_self, improper_of_none own⟩
  | some level =>
    refine .inl fun other => ?_
    change Tracks (if other = chip then _ else _) (levels other (replacement :: below))
    rw [levels_cons]
    by_cases here : other = chip
    · subst here
      rw [if_pos rfl, paid]
      exact (accounts.retired active (owed_of_due due own)).2
    · have kept := accounts other
      rw [active, levels_cons, ← same other here] at kept
      rw [if_neg here]
      exact kept

/-- A step keeps the accounts, or it sends an EOI for a bit that the interrupt does not have. -/
theorem accounts_advance (accounts : Accounts state) (active : state.active = activation :: below)
    (advances : Advances dispatcher state activation below next) :
    Accounts next ∨ ∃ ack ∈ next.acks, ¬ ack.Proper := by
  cases advances with
  | dismiss phase spurious =>
    have known := dismissed_eq accounts active phase spurious
    refine .inl (accounts.replace active fun chip => ?_)
    rw [Activation.owed, Activation.owed, phase, known]
    cases chip <;> rfl
  | slave phase | call phase | skip phase =>
    refine .inl (accounts.replace active fun chip => ?_)
    rw [Activation.owed, Activation.owed, phase]
    rfl
  | master phase genuine low =>
    refine .inl (accounts.replace active fun chip => ?_)
    rw [Activation.owed, Activation.owed, phase]
    cases chip with
    | pic1 => rfl
    | pic2 => exact (bit_pic2_of_low low).symm
  | slaveEoi phase =>
    apply accounts.eoi_or_improper active (by rw [phase]; rfl) rfl
    intro other different
    cases other with
    | pic1 =>
      rw [Activation.owed, Activation.owed, phase]
      rfl
    | pic2 => exact absurd rfl different
  | masterEoi phase =>
    apply accounts.eoi_or_improper active (by rw [phase]; rfl) rfl
    intro other different
    cases other with
    | pic1 => exact absurd rfl different
    | pic2 =>
      rw [Activation.owed, Activation.owed, phase]
      rfl
  | leave phase =>
    refine .inl fun chip => ?_
    have tracks := accounts chip
    have paid : activation.owed chip = none := by
      rw [Activation.owed, phase]
      rfl
    rwa [active, levels_cons, paid] at tracks

/-- How often the handler is to be called. -/
def Called (dispatcher : Dispatcher) (source : Source) (calls : Nat) : Prop :=
  match source with
  | .irq _ => calls = if dispatcher.handlers source.vector then 1 else 0
  | .spurious7 => calls = 0
  | _ => True

/-- Every EOI has cleared the bit of the interrupt it was sent for, so none was sent for an exception,
and the handlers of the hardware interrupts were called. -/
structure Acknowledged (dispatcher : Dispatcher) (state : State) : Prop where
  acks : ∀ ack ∈ state.acks, ack.Proper
  calls : ∀ source calls, (source, calls) ∈ state.completed → Called dispatcher source calls

/-- Neither an exception nor a spurious IRQ 15 nor, while IRQ 7 is in service, a spurious IRQ 7. -/
def Benign (state : State) : Action → Prop
  | .arrive (.irq _) => True
  | .arrive .spurious7 => (state.inService .pic1).getLsbD 7 = false
  | .arrive _ => False
  | .advance => True

instance Benign.decidable (state : State) : ∀ action, Decidable (Benign state action)
  | .arrive (.irq _) => .isTrue trivial
  | .arrive .spurious7 => inferInstanceAs (Decidable (_ = false))
  | .arrive .spurious15 => .isFalse id
  | .arrive (.exception _) => .isFalse id
  | .advance => .isTrue trivial

/-- The dispatch is going to send only the EOIs it should send, and to call the handler once. -/
def Regular (dispatcher : Dispatcher) (activation : Activation) (below : List Activation) : Prop :=
  match activation.source with
  | .irq line => (activation.phase = .slaveEoi → 8 ≤ line.val) ∧ activation.calls =
      if activation.phase = .leaving ∧ dispatcher.handlers activation.source.vector then 1 else 0
  | .spurious7 => activation.calls = 0 ∧
      (activation.phase = .leaving ∨ activation.phase = .entered ∧ Fin.last 7 ∉ levels .pic1 below)
  | _ => False

def Settled (dispatcher : Dispatcher) : List Activation → Prop
  | [] => True
  | activation :: below => Regular dispatcher activation below ∧ Settled dispatcher below

structure Good (dispatcher : Dispatcher) (state : State) : Prop where
  accounts : Accounts state
  settled : Settled dispatcher state.active
  acknowledged : Acknowledged dispatcher state

/-- The dispatch is going to send an EOI without having a bit in service. -/
def Stray (activation : Activation) (below : List Activation) : Prop :=
  match activation.source with
  | .irq _ => False
  | .spurious7 => activation.phase = .masterEoi ∨ activation.phase = .entered ∧ Fin.last 7 ∈ levels .pic1 below
  | _ => activation.phase = .entered ∨ activation.phase = .slaveEoi

def Astray : List Activation → Prop
  | [] => False
  | activation :: below => Stray activation below ∨ Astray below

def Spoiled (state : State) : Prop :=
  (∃ ack ∈ state.acks, ¬ ack.Proper) ∨ Accounts state ∧ Astray state.active

/-- An arrival only starts a dispatch. -/
theorem arrive_eq (arrived : State.arrive state source = some next) :
    next.active = { source, phase := .entered, calls := 0 } :: state.active ∧
      next.acks = state.acks ∧ next.completed = state.completed := by
  unfold State.arrive at arrived
  split at arrived
  · cases arrived
    exact ⟨rfl, rfl, rfl⟩
  · cases arrived

theorem good_arrive (good : Good dispatcher state) (benign : Benign state (.arrive source))
    (arrived : state.arrive source = some next) : Good dispatcher next := by
  obtain ⟨active, acks, completed⟩ := arrive_eq arrived
  refine ⟨accounts_arrive good.accounts arrived, ?_, ?_⟩
  · rw [active]
    refine ⟨?_, good.settled⟩
    cases source with
    | irq line => exact ⟨nofun, rfl⟩
    | spurious7 => exact ⟨rfl, .inr ⟨rfl, good.accounts.clear_iff.mp benign⟩⟩
    | spurious15 => exact benign
    | exception vector => exact benign
  · constructor
    · rw [acks]
      exact good.acknowledged.acks
    · rw [completed]
      exact good.acknowledged.calls

theorem proper_of_owed (accounts : Accounts state) (active : state.active = activation :: below)
    (due : activation.phase.due chip = true) (own : activation.source.bit chip = some level) :
    Ack.Proper { source := activation.source, chip, retired := highest (state.inService chip) } := by
  have found := (accounts.retired active (owed_of_due due own)).1
  exact ⟨by simp [found], own.trans found.symm⟩

/-- A regular dispatch sends only EOIs for bits that it owes. -/
theorem regular_acks (good : Good dispatcher state) (active : state.active = activation :: below)
    (regular : Regular dispatcher activation below)
    (advances : Advances dispatcher state activation below next) : ∀ ack ∈ next.acks, ack.Proper := by
  have old := good.acknowledged.acks
  unfold Regular at regular
  cases advances with
  | slaveEoi phase =>
    refine List.forall_mem_cons.mpr ⟨?_, old⟩
    split at regular
    case h_1 line source =>
      have own : activation.source.bit .pic2 = some ⟨line - 8, by omega⟩ := by
        rw [source]
        exact if_pos (regular.1 phase)
      exact proper_of_owed good.accounts active (by rw [phase]; rfl) own
    case h_2 => simp [phase] at regular
    case h_3 => exact regular.elim
  | masterEoi phase =>
    refine List.forall_mem_cons.mpr ⟨?_, old⟩
    split at regular
    case h_1 line source =>
      have own : activation.source.bit .pic1 = some (if small : line < 8 then ⟨line, small⟩ else 2) := by
        rw [source]
        rfl
      exact proper_of_owed good.accounts active (by rw [phase]; rfl) own
    case h_2 => simp [phase] at regular
    case h_3 => exact regular.elim
  | _ => exact old

section
variable (accounts : Accounts state) (active : state.active = activation :: below)
  (settled : Settled dispatcher (activation :: below))
  (advances : Advances dispatcher state activation below next)
include accounts active settled advances

theorem settled_irq (source : activation.source = .irq line) : Settled dispatcher next.active := by
  obtain ⟨_, current, calls⟩ := activation
  subst source
  obtain ⟨⟨slave, counted⟩, rest⟩ := settled
  cases advances with
  | dismiss phase spurious => cases dismissed_eq accounts active phase spurious
  | slave phase genuine high =>
    obtain rfl : current = .entered := phase
    rw [number_irq] at high
    exact ⟨⟨fun _ => high, by simpa using counted⟩, rest⟩
  | master phase genuine low =>
    obtain rfl : current = .entered := phase
    exact ⟨⟨nofun, by simpa using counted⟩, rest⟩
  | slaveEoi phase =>
    obtain rfl : current = .slaveEoi := phase
    exact ⟨⟨nofun, by simpa using counted⟩, rest⟩
  | masterEoi phase =>
    obtain rfl : current = .masterEoi := phase
    exact ⟨⟨nofun, by simpa using counted⟩, rest⟩
  | call phase handler | skip phase handler =>
    obtain rfl : current = .lookup := phase
    exact ⟨⟨nofun, by simpa [handler] using counted⟩, rest⟩
  | leave phase => exact rest

theorem settled_spurious7 (source : activation.source = .spurious7) : Settled dispatcher next.active := by
  obtain ⟨_, current, calls⟩ := activation
  subst source
  obtain ⟨⟨uncalled, leaving | ⟨entered, absent⟩⟩, rest⟩ := settled
  · obtain rfl : current = .leaving := leaving
    cases advances with
    | leave phase => exact rest
    | dismiss phase | slave phase | master phase | slaveEoi phase | masterEoi phase | call phase
    | skip phase => cases phase
  · obtain rfl : current = .entered := entered
    cases advances with
    | dismiss phase spurious => exact ⟨⟨uncalled, .inl rfl⟩, rest⟩
    | slave phase genuine high => exact absurd (show 8 ≤ Source.spurious7.number.toNat from high) (by decide)
    | master phase genuine low =>
      -- nobody below has bit 7 in service, so it is clear
      have clear := accounts.clear_iff.mpr (by rw [active]; exact absent)
      have seven : Source.spurious7.number = 7 := by decide
      exact absurd ((spurious_iff state _).mpr ⟨seven, clear⟩) genuine
    | slaveEoi phase | masterEoi phase | call phase | skip phase | leave phase => cases phase

theorem settled_advance : Settled dispatcher next.active := by
  cases source : activation.source with
  | irq line => exact settled_irq accounts active settled advances source
  | spurious7 => exact settled_spurious7 accounts active settled advances source
  | spurious15 | exception => simp [Settled, Regular, source] at settled

end

theorem good_advance (good : Good dispatcher state) (active : state.active = activation :: below)
    (advances : Advances dispatcher state activation below next) : Good dispatcher next := by
  have settled := good.settled
  rw [active] at settled
  have acks := regular_acks good active settled.1 advances
  refine ⟨?_, settled_advance good.accounts active settled advances, acks, ?_⟩
  · rcases accounts_advance good.accounts active advances with kept | ⟨ack, sent, improper⟩
    · exact kept
    · exact absurd (acks ack sent) improper
  · -- a dispatch returns from its last phase
    have old := good.acknowledged.calls
    cases advances with
    | leave phase =>
      have regular := settled.1
      intro source calls member
      rcases List.mem_cons.mp member with same | earlier
      · obtain ⟨rfl, rfl⟩ := Prod.mk.inj same
        unfold Regular at regular
        unfold Called
        split at regular <;> rename_i source
        · simpa [source, phase] using regular.2
        · simpa [source] using regular.1
        · exact regular.elim
      · exact old source calls earlier
    | _ => exact old

theorem spoiled_of_not_benign (accounts : Accounts state) (harmful : ¬ Benign state (.arrive source))
    (arrived : state.arrive source = some next) : Spoiled next := by
  obtain ⟨active, -, -⟩ := arrive_eq arrived
  refine .inr ⟨accounts_arrive accounts arrived, ?_⟩
  rw [active]
  left
  cases source with
  | irq line => exact absurd trivial harmful
  | spurious7 => exact .inr ⟨rfl, not_not.mp (mt accounts.clear_iff.mpr harmful)⟩
  | spurious15 => exact .inl rfl
  | exception vector => exact .inl rfl

section
variable (advances : Advances dispatcher state activation below next)
include advances

theorem acks_mono {ack : Ack} (sent : ack ∈ state.acks) : ack ∈ next.acks := by
  cases advances with
  | slaveEoi | masterEoi => exact List.mem_cons_of_mem _ sent
  | _ => exact sent

theorem active_of_advances :
    next.active = below ∨ ∃ replacement, next.active = replacement :: below := by
  cases advances with
  | leave => exact .inl rfl
  | _ => exact .inr ⟨_, rfl⟩

/-- An interrupt that passes for one of the slave's without being one. -/
theorem high_advance (high : 8 ≤ activation.source.number.toNat)
    (none : activation.source.bit .pic2 = none)
    (early : activation.phase = .entered ∨ activation.phase = .slaveEoi)
    (later : Stray { activation with phase := .slaveEoi } below) :
    Astray next.active ∨ ∃ ack ∈ next.acks, ¬ ack.Proper := by
  cases advances with
  | dismiss phase spurious =>
    rw [((spurious_iff state _).mp spurious).1] at high
    exact absurd high (by decide)
  | slave phase genuine _ => exact .inl (.inl later)
  | master phase genuine low => omega
  | slaveEoi phase => exact .inr ⟨_, List.mem_cons_self, improper_of_none none⟩
  | masterEoi phase | call phase | skip phase | leave phase => simp [phase] at early

end

/-- The dispatch that is going astray goes on to the EOI that it should not send. -/
theorem stray_advance (accounts : Accounts state) (active : state.active = activation :: below)
    (stray : Stray activation below) (advances : Advances dispatcher state activation below next) :
    Astray next.active ∨ ∃ ack ∈ next.acks, ¬ ack.Proper := by
  obtain ⟨source, current, calls⟩ := activation
  cases source with
  | irq line => exact stray.elim
  | spurious7 =>
    -- `clear` takes it for IRQ 7
    have mistaken : current = .masterEoi ∨ current = .entered ∧ Fin.last 7 ∈ levels .pic1 below := stray
    cases advances with
    | dismiss phase spurious =>
      cases phase
      have member : Fin.last 7 ∈ levels .pic1 below := by simpa using mistaken
      refine absurd ?_ (accounts.clear_iff.mp ((spurious_iff state _).mp spurious).2)
      rw [active, levels_cons]
      exact List.mem_append_right _ member
    | slave phase genuine high => exact absurd (show 8 ≤ Source.spurious7.number.toNat from high) (by decide)
    | master phase genuine low => exact .inl (.inl (.inl rfl))
    | masterEoi phase => exact .inr ⟨_, List.mem_cons_self, improper_of_none rfl⟩
    | slaveEoi phase | call phase | skip phase | leave phase =>
      cases phase
      simp at mistaken
  | spurious15 =>
    have high : 8 ≤ Source.spurious15.number.toNat := by decide
    exact high_advance advances high rfl stray (.inr rfl)
  | exception vector => exact high_advance advances (number_exception vector) rfl stray (.inr rfl)

theorem step_spoiled (spoiled : Spoiled state) (stepped : step dispatcher state action = some next) :
    Spoiled next := by
  cases action with
  | arrive source =>
    obtain ⟨active, acks, -⟩ := arrive_eq stepped
    rcases spoiled with improper | ⟨accounts, astray⟩
    · left
      rwa [acks]
    · right
      refine ⟨accounts_arrive accounts stepped, ?_⟩
      rw [active]
      exact .inr astray
  | advance =>
    obtain ⟨activation, below, active, advances⟩ := advance_cases stepped
    rcases spoiled with ⟨ack, sent, improper⟩ | ⟨accounts, astray⟩
    · exact .inl ⟨ack, acks_mono advances sent, improper⟩
    · rcases accounts_advance accounts active advances with kept | improper
      · rw [active] at astray
        rcases astray with stray | deeper
        · rcases stray_advance accounts active stray advances with later | improper
          · exact .inr ⟨kept, later⟩
          · exact .inl improper
        · right
          refine ⟨kept, ?_⟩
          rcases active_of_advances advances with same | ⟨replacement, same⟩
          · rwa [same]
          · rw [same]
            exact .inr deeper
      · exact .inl improper

theorem Good.step (good : Good dispatcher state) (benign : Benign state action)
    (stepped : step dispatcher state action = some next) : Good dispatcher next := by
  cases action with
  | arrive source => exact good_arrive good benign stepped
  | advance =>
    obtain ⟨activation, below, active, advances⟩ := advance_cases stepped
    exact good_advance good active advances

/-- By induction on the run. After its first harmful arrival, it is spoiled to the end. -/
theorem legal_of_acknowledged (good : Good dispatcher state)
    (ran : run (step dispatcher) state actions = some final) (complete : final.active = [])
    (acknowledged : Acknowledged dispatcher final) : Legal (step dispatcher) Benign state actions := by
  induction actions generalizing state with
  | nil => trivial
  | cons action rest ih =>
    obtain ⟨next, stepped, ran⟩ := Option.bind_eq_some_iff.mp ran
    by_cases benign : Benign state action
    · refine ⟨benign, fun other same => ?_⟩
      cases stepped.symm.trans same
      exact ih (good.step benign stepped) ran
    · have spoiled : Spoiled next := by
        cases action with
        | arrive source => exact spoiled_of_not_benign good.accounts benign stepped
        | advance => exact absurd trivial benign
      have last : Spoiled final :=
        run_preserves (fun state action next _ => step_spoiled) spoiled ran
      rcases last with ⟨ack, sent, improper⟩ | ⟨-, astray⟩
      · exact absurd (acknowledged.acks ack sent) improper
      · rw [complete] at astray
        exact astray.elim

/-- As long as no harmful interrupt arrives, every EOI has gone to the interrupt it was sent for and the
handlers were called as they should. When all dispatches of a run have returned, this is so exactly if none
has arrived. -/
theorem acknowledged_iff (dispatcher : Dispatcher) (actions : List Action) (final : State)
    (ran : run (step dispatcher) boot actions = some final) :
    (Legal (step dispatcher) Benign boot actions → Acknowledged dispatcher final) ∧
    (final.active = [] → (Acknowledged dispatcher final ↔ Legal (step dispatcher) Benign boot actions)) := by
  have good : Good dispatcher boot := ⟨fun chip => ⟨by simp [boot, levels], .nil⟩, trivial, nofun, nofun⟩
  have acknowledged (legal : Legal (step dispatcher) Benign boot actions) : Acknowledged dispatcher final :=
    (legal_preserves (fun _ _ _ good benign stepped => good.step benign stepped) legal good ran).acknowledged
  exact ⟨acknowledged, fun complete => ⟨legal_of_acknowledged good ran complete, acknowledged⟩⟩

/-- A dispatcher with all handlers. -/
def equipped : Dispatcher where
  handlers := fun _ => true
  shouldPanicOnNullHandler := true

/-- The timer interrupts a dispatch for the mouse between its two EOIs, and a spurious IRQ 7 comes after it. -/
theorem acknowledged_sample : ∃ final,
    run (step equipped) boot ([.arrive (.irq 12), .advance, .advance, .arrive (.irq 0)] ++
      List.replicate 7 .advance ++ [.arrive .spurious7, .advance, .advance]) = some final ∧
      Acknowledged equipped final :=
  ⟨_, rfl, (acknowledged_iff equipped ([.arrive (.irq 12), .advance, .advance, .arrive (.irq 0)] ++
    List.replicate 7 .advance ++ [.arrive .spurious7, .advance, .advance]) _ rfl).1 (by decide)⟩

/-- An NMI that comes before the keyboard's interrupt is acknowledged sends two EOIs. The second one
acknowledges the keyboard's interrupt, whose own EOI then finds nothing in service. -/
theorem nmi_acknowledges : ∃ final,
    run (step equipped) boot ([.arrive (.irq 1), .arrive (.exception 2)] ++ List.replicate 9 .advance) =
      some final ∧ final.active = [] ∧ final.acks =
        [⟨.irq 1, .pic1, none⟩, ⟨.exception 2, .pic1, some 1⟩, ⟨.exception 2, .pic2, none⟩] ∧
      ¬ Acknowledged equipped final :=
  ⟨_, rfl, rfl, rfl, fun acknowledged => (acknowledged.acks _ List.mem_cons_self).1 rfl⟩

end FlapjackOS.Interrupts
