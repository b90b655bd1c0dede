import AntennaArray.Transmitter

/-!
# What a transmitter remembers

The state of a transmitter after any operations is read off the log of what succeeded: the last
target that was set gives the weights, the last exchange the elements, and a transmission in all
directions is on where one was started after the last target. `Remembers` says so of a log and a
transmitter; one operation keeps it (`Remembers.perform`), and therefore so does a run
(`Remembers.run`). An operation that fails changes nothing, as every call finds what it needs before
it writes. The main statement, `run_recorded`, puts this together as what a caller sees.
-/

namespace AntennaArray

/-- The weights that a target means for an array. -/
def Target.vector (a : PhasedArray Float) : Target → List (Phasor Float)
  | .direction d => a.beam d
  | .nested ws => ws.entries

namespace Transmitter

/-! ## What one operation does -/

section Operations

variable {ε α β : Type} {t : Transmitter ε}

theorem outcome_get_bind (t : Transmitter ε) (next : Transmitter ε → Call ε β) :
    t.outcome (MonadState.get >>= next) = t.outcome (next t) := rfl

/-- After an attempt that is made within a call, the call goes on or ends; nothing is written. -/
theorem outcome_liftM_bind (t : Transmitter ε) (x : Attempt α) (next : α → Call ε β) :
    t.outcome ((liftM x : Call ε α) >>= next) =
      match x with
      | .ok a => t.outcome (next a)
      | .error f => (.error f, t) := by
  cases x with
  | ok a => rfl
  | error f => rfl

theorem perform_set (t : Transmitter ε) (target : Target) :
    t.perform (.set target) =
      match t.weightsFor target with
      | .ok ws => (.ok .done, { t with current := some ws, omni := false })
      | .error f => (.error f, t) := by
  rw [perform, Operation.call, setting]
  simp only [bind_assoc]
  rw [outcome_get_bind, outcome_liftM_bind]
  cases t.weightsFor target with
  | ok ws => rfl
  | error f => rfl

theorem perform_get (t : Transmitter ε) :
    t.perform .get =
      match t.current with
      | some ws => (.ok (.weights ws), t)
      | none => (.error .noWeights, t) := by
  obtain ⟨p, e, current, omni, hsize⟩ := t
  cases current with
  | some ws => rfl
  | none => rfl

@[simp] theorem perform_omni (t : Transmitter ε) :
    t.perform .omni = (.ok .done, { t with omni := true }) := rfl

@[simp] theorem perform_swap_some (t : Transmitter ε) (e : ε) :
    t.perform (.swap (some e)) = (.ok .done, { t with element := e }) := rfl

@[simp] theorem perform_swap_none (t : Transmitter ε) :
    t.perform (.swap none) = (.error (.misfit .noGain), t) := rfl

/-- An operation that fails changes nothing. -/
theorem perform_eq_self_of_error {op : Operation ε} {f : Fault} (h : (t.perform op).1 = .error f) :
    (t.perform op).2 = t := by
  cases op with
  | set target =>
    rw [perform_set] at h ⊢
    cases hws : t.weightsFor target with
    | ok ws => rw [hws] at h; cases h
    | error f => rfl
  | get =>
    rw [perform_get]
    cases t.current with
    | some ws => rfl
    | none => rfl
  | omni => cases h
  | isOmni => rfl
  | swap element =>
    cases element with
    | some e => cases h
    | none => rfl

/-- Only a target that is set changes the weights. -/
theorem current_perform {op : Operation ε} (h : ∀ target, op ≠ .set target) :
    (t.perform op).2.current = t.current := by
  cases op with
  | set target => exact absurd rfl (h target)
  | get =>
    rw [perform_get]
    cases hcurrent : t.current with
    | some ws => exact hcurrent
    | none => exact hcurrent
  | omni => rfl
  | isOmni => rfl
  | swap element =>
    cases element with
    | some e => rfl
    | none => rfl

/-- The weights for a direction are those that point the array there. -/
theorem weightsFor_direction (t : Transmitter ε) (d : Direction Float) :
    t.weightsFor (.direction d) = t.placement.screen.map fun _ => t.placement.aperture.beam d := by
  rw [weightsFor, screen]
  cases t.placement.screen with
  | ok _ => rfl
  | error f => rfl

/-- Nested weights are kept as they are, if their rows are even and there is one for each
element. -/
theorem weightsFor_nested_eq_ok {ws : Nested (Phasor Float)} {vs : List (Phasor Float)} :
    t.weightsFor (.nested ws) = .ok vs ↔
      (ws.isEven = true ∧ ws.entries.length = t.placement.size) ∧ vs = ws.entries := by
  have hscreen : t.weightsFor (.nested ws)
      = if ws.isEven then t.placement.aperture.weights ws.entries else .error .incompatible := rfl
  rw [hscreen]
  by_cases heven : ws.isEven = true
  · rw [if_pos heven, PhasedArray.weights_eq_ok]
    simp [heven, Placement.aperture]
  · simp [heven]

/-- The weights that a target gets are those that it means, one for each element. -/
theorem eq_vector_of_weightsFor {target : Target} {ws : List (Phasor Float)}
    (h : t.weightsFor target = .ok ws) :
    ws = target.vector t.placement.aperture ∧ ws.length = t.placement.size := by
  cases target with
  | direction d =>
    rw [weightsFor_direction] at h
    cases hscreen : t.placement.screen with
    | ok _ =>
      rw [hscreen] at h
      cases h
      exact ⟨rfl, PhasedArray.length_beam t.placement.aperture d⟩
    | error f => rw [hscreen] at h; cases h
  | nested vs =>
    obtain ⟨⟨-, hlength⟩, rfl⟩ := weightsFor_nested_eq_ok.mp h
    exact ⟨rfl, hlength⟩

end Operations

/-! ## Logs -/

variable {ε : Type}

namespace Event

def target? : Event ε → Option Target
  | ⟨.set target, .ok _⟩ => some target
  | _ => none

/-- The elements that were put in place of others. -/
def element? : Event ε → Option ε
  | ⟨.swap element, .ok _⟩ => element
  | _ => none

end Event

/-- Whether a transmission in all directions was started after the last target was set. -/
def EndsOmni (log : List (Event ε)) : Prop :=
  ∃ before ev after, log = before ++ ev :: after ∧ ev.operation = .omni ∧
    ∀ later ∈ after, later.target? = none

theorem endsOmni_concat {log : List (Event ε)} {ev : Event ε} :
    EndsOmni (log ++ [ev]) ↔ ev.operation = .omni ∨ (ev.target? = none ∧ EndsOmni log) := by
  constructor
  · rintro ⟨before, omni, after, hlog, homni, hafter⟩
    rcases List.eq_nil_or_concat after with rfl | ⟨rest, last, rfl⟩
    · have hlast := (List.append_inj' hlog rfl).2
      cases hlast
      exact .inl homni
    · rw [List.concat_eq_append] at hlog hafter
      have hsplit : log ++ [ev] = (before ++ omni :: rest) ++ [last] := by simp [hlog]
      obtain ⟨hfront, hlast⟩ := List.append_inj' hsplit rfl
      cases hlast
      refine .inr ⟨hafter ev (by simp), before, omni, rest, hfront, homni, ?_⟩
      intro later hlater
      exact hafter later (List.mem_append_left _ hlater)
  · rintro (homni | ⟨htarget, before, omni, after, rfl, homni, hafter⟩)
    · exact ⟨log, ev, [], rfl, homni, by simp⟩
    · refine ⟨before, omni, after ++ [ev], by simp, homni, ?_⟩
      intro later hlater
      rcases List.mem_append.mp hlater with hmem | hmem
      · exact hafter later hmem
      · rw [List.mem_singleton.mp hmem, htarget]

/-- What a transmitter, at first with the elements `e` at the places `p`, keeps of a log. -/
structure Remembers (p : Placement Float) (e : ε) (log : List (Event ε))
    (t : Transmitter ε) : Prop where
  placement_eq : t.placement = p
  element_eq : t.element = (log.filterMap Event.element?).getLast?.getD e
  current_eq : t.current =
    (log.filterMap Event.target?).getLast?.map (Target.vector p.aperture)
  length_eq : ∀ ws, t.current = some ws → ws.length = p.size
  omni_iff : t.omni = true ↔ EndsOmni log

section Remembers

variable {p : Placement Float} {e : ε} {log past : List (Event ε)} {t : Transmitter ε}

/-- The weights that a target means depend on the places of the elements alone. -/
theorem vector_congr {a b : PhasedArray Float} (h : a.placement = b.placement) (target : Target) :
    target.vector a = target.vector b := by
  cases target with
  | direction d =>
    simp only [Target.vector, PhasedArray.beam, PhasedArray.steering, PhasedArray.points, h]
  | nested ws => rfl

theorem not_endsOmni_nil : ¬ EndsOmni ([] : List (Event ε)) := by
  rintro ⟨before, ev, after, hlog, -, -⟩
  simp at hlog

/-- A transmitter that was just built remembers nothing. -/
theorem remembers_of_build (h : build p e = .ok t) : Remembers p e [] t := by
  unfold build at h
  split at h
  · cases h
    exact ⟨rfl, rfl, rfl, by simp, by simp [not_endsOmni_nil]⟩
  · cases h

/-- An event that neither sets a target nor exchanges elements, of an operation that is not a start
of a transmission in all directions, leaves nothing to remember. -/
theorem Remembers.concat_idle {ev : Event ε} (h : Remembers p e log t) (htarget : ev.target? = none)
    (helement : ev.element? = none) (homni : ev.operation ≠ .omni) :
    Remembers p e (log ++ [ev]) t where
  placement_eq := h.placement_eq
  element_eq := by simpa [helement] using h.element_eq
  current_eq := by simpa [htarget] using h.current_eq
  length_eq := h.length_eq
  omni_iff := by simp [endsOmni_concat, htarget, homni, h.omni_iff]

/-- One operation keeps what is remembered. -/
theorem Remembers.perform (h : Remembers p e log t) (op : Operation ε) :
    Remembers p e (log ++ [⟨op, (t.perform op).1⟩]) (t.perform op).2 := by
  cases op with
  | set target =>
    rw [perform_set]
    cases hws : t.weightsFor target with
    | ok ws =>
      obtain ⟨hvector, hlength⟩ := eq_vector_of_weightsFor hws
      exact {
        placement_eq := h.placement_eq
        element_eq := by simpa [Event.element?] using h.element_eq
        current_eq := by
          rw [h.placement_eq] at hvector
          simpa [Event.target?] using hvector
        length_eq := by
          intro vs hvs
          cases hvs
          rw [hlength, h.placement_eq]
        omni_iff := by simp [endsOmni_concat, Event.target?] }
    | error f => exact h.concat_idle rfl rfl (by simp)
  | get =>
    rw [perform_get]
    cases t.current with
    | some ws => exact h.concat_idle rfl rfl (by simp)
    | none => exact h.concat_idle rfl rfl (by simp)
  | omni =>
    exact {
      placement_eq := h.placement_eq
      element_eq := by simpa [Event.element?] using h.element_eq
      current_eq := by simpa [Event.target?] using h.current_eq
      length_eq := h.length_eq
      omni_iff := by simp [endsOmni_concat] }
  | isOmni => exact h.concat_idle rfl rfl (by simp)
  | swap element =>
    cases element with
    | some new =>
      exact {
        placement_eq := h.placement_eq
        element_eq := by simp [Event.element?]
        current_eq := by simpa [Event.target?] using h.current_eq
        length_eq := h.length_eq
        omni_iff := by simp [endsOmni_concat, Event.target?, h.omni_iff] }
    | none => exact h.concat_idle rfl rfl (by simp)

/-- A run keeps what is remembered. -/
theorem Remembers.run (h : Remembers p e past t) (ops : List (Operation ε)) :
    Remembers p e (past ++ t.log ops) (t.run ops) := by
  induction ops generalizing past t with
  | nil => simpa [Transmitter.log] using h
  | cons op rest ih =>
    have hrest := ih (h.perform op)
    rw [List.append_assoc, List.singleton_append] at hrest
    rw [Transmitter.log, run_cons]
    exact hrest

/-! ## What can be seen of it -/

/-- No weights are read exactly as long as no target was set. -/
theorem Remembers.get_eq_error_iff (h : Remembers p e log t) :
    (t.perform .get).1 = .error .noWeights ↔ ∀ ev ∈ log, ev.target? = none := by
  have hnone : t.current = none ↔ ∀ ev ∈ log, ev.target? = none := by
    rw [h.current_eq, Option.map_eq_none_iff, List.getLast?_eq_none_iff, List.filterMap_eq_nil_iff]
  rw [← hnone, perform_get]
  cases t.current with
  | some ws => simp
  | none => simp

/-- The weights that are read are those that the last target means for an array at these places. -/
theorem Remembers.get_eq_ok (h : Remembers p e log t) {a : PhasedArray Float}
    (ha : a.placement = p) {target : Target}
    (hlast : (log.filterMap Event.target?).getLast? = some target) :
    (t.perform .get).1 = .ok (.weights (target.vector a)) ∧ (target.vector a).length = p.size := by
  have hcurrent : t.current = some (target.vector a) := by
    rw [h.current_eq, hlast, Option.map_some, vector_congr]
    exact ha.symm
  rw [perform_get, hcurrent]
  exact ⟨rfl, h.length_eq _ hcurrent⟩

/-- A direction is set if there is room for all elements. -/
theorem set_direction_eq_ok_iff (t : Transmitter ε) (d : Direction Float) :
    (t.perform (.set (.direction d))).1 = .ok .done ↔ t.placement.screen = .ok () := by
  rw [perform_set, weightsFor_direction]
  cases t.placement.screen with
  | ok u => simp [Except.map]
  | error f => simp [Except.map]

/-- Weights are set if their rows are even and there is one for each element. -/
theorem set_nested_eq_ok_iff (t : Transmitter ε) (ws : Nested (Phasor Float)) :
    (t.perform (.set (.nested ws))).1 = .ok .done ↔
      ws.isEven = true ∧ ws.entries.length = t.placement.size := by
  rw [perform_set]
  cases hws : t.weightsFor (.nested ws) with
  | ok vs => simpa using (weightsFor_nested_eq_ok.mp hws).1
  | error f =>
    simp only [reduceCtorEq, false_iff]
    intro hfits
    have hok := weightsFor_nested_eq_ok.mpr ⟨hfits, rfl⟩
    rw [hws] at hok
    cases hok

theorem swap_eq_ok_iff (t : Transmitter ε) (element : Option ε) :
    (t.perform (.swap element)).1 = .ok .done ↔ element.isSome = true := by
  cases element with
  | some e => simp
  | none => simp

/-- After any operations on a transmitter, the log tells what is read from it, how it transmits and
which elements it has. What fails changes nothing, and the weights change only when a target is set:
a direction, if there is room for all elements, or weights in even rows, one for each element. -/
theorem run_recorded (h : build p e = .ok t) (ops : List (Operation ε)) :
    (((t.run ops).perform .get).1 = .error .noWeights ↔ ∀ ev ∈ t.log ops, ev.target? = none) ∧
    (∀ a : PhasedArray Float, a.placement = p → ∀ target,
      ((t.log ops).filterMap Event.target?).getLast? = some target →
        ((t.run ops).perform .get).1 = .ok (.weights (target.vector a)) ∧
          (target.vector a).length = p.size) ∧
    (∃ omni, ((t.run ops).perform .isOmni).1 = .ok (.flag omni) ∧
      (omni = true ↔ EndsOmni (t.log ops))) ∧
    (t.run ops).element = ((t.log ops).filterMap Event.element?).getLast?.getD e ∧
    (∀ op f, ((t.run ops).perform op).1 = .error f → ((t.run ops).perform op).2 = t.run ops) ∧
    (∀ op, (∀ target, op ≠ .set target) →
      ((t.run ops).perform op).2.current = (t.run ops).current) ∧
    (∀ d, ((t.run ops).perform (.set (.direction d))).1 = .ok .done ↔ p.screen = .ok ()) ∧
    (∀ ws, ((t.run ops).perform (.set (.nested ws))).1 = .ok .done ↔
      ws.isEven = true ∧ ws.entries.length = p.size) ∧
    (∀ element, ((t.run ops).perform (.swap element)).1 = .ok .done ↔ element.isSome = true) := by
  have hstart : Remembers p e [] t := remembers_of_build h
  have hend : Remembers p e (t.log ops) (t.run ops) := hstart.run ops
  refine ⟨hend.get_eq_error_iff, ?_, ⟨_, rfl, hend.omni_iff⟩, hend.element_eq, ?_, ?_, ?_, ?_, ?_⟩
  · intro a ha target hlast
    exact hend.get_eq_ok ha hlast
  · intro op f hfault
    exact perform_eq_self_of_error hfault
  · intro op hop
    exact current_perform hop
  · intro d
    rw [set_direction_eq_ok_iff, hend.placement_eq]
  · intro ws
    rw [set_nested_eq_ok_iff, hend.placement_eq]
  · exact swap_eq_ok_iff _

/-- A single element keeps its weight through refused operations, and the flag that it ended stays
clear. -/
theorem run_recorded_single :
    ∃ t : Transmitter, build (.points [⟨0, 0, 0⟩]) .isotropic = .ok t ∧
      ((t.run [.omni, .set (.weights [⟨1, 0⟩]), .set (.weights []), .swap none]).perform .get).1 =
        .ok (.weights [⟨1, 0⟩]) ∧
      ¬ EndsOmni (t.log [.omni, .set (.weights [⟨1, 0⟩]), .set (.weights []), .swap none]) := by
  have hbuild : build (.points [⟨0, 0, 0⟩]) (Element.isotropic : Element Number) =
      .ok ⟨.points [⟨0, 0, 0⟩], .isotropic, none, false, by decide⟩ := rfl
  refine ⟨_, hbuild, ?_⟩
  obtain ⟨-, hget, ⟨omni, hflag, homni⟩, -⟩ := run_recorded hbuild
    [.omni, .set (.weights [⟨1, 0⟩]), .set (.weights []), .swap none]
  refine ⟨(hget (.of (.points [⟨0, 0, 0⟩]) .isotropic) rfl (.weights [⟨1, 0⟩]) rfl).1, ?_⟩
  rw [← homni]
  cases hflag
  decide

end Remembers

end Transmitter

end AntennaArray
