import Recompile.Bundle.Playback

/-!
Sessions over the life of a runner. Whatever the bundler makes of what it is asked for, a runner holds
the last session that was started or none, and disposes of every session once.
-/

namespace Recompile.Bundle

/-- What a bundler was asked for, and what came of it. Sessions go by their numbers; where none is at hand,
a rebuild or a disposal has no number. -/
inductive Event where
  | built (succeeded : Bool)
  | refused
  | started (session : Nat)
  | rebuilt (session : Option Nat) (succeeded : Bool)
  | disposed (session : Option Nat)
deriving DecidableEq

namespace Event

def start? : Event → Option Nat
  | started session => some session
  | _ => none

def end? : Event → Option (Option Nat)
  | disposed session => some session
  | _ => none

end Event

/-- A bundler under observation, with the session at hand. -/
structure Recorded (β : Type) where
  bundler : β
  events : List Event
  session : Option Nat

namespace Recorded

variable {β : Type}

def begin (b : β) : Recorded β :=
  ⟨b, [], none⟩

def started (b : Recorded β) : List Nat :=
  b.events.filterMap Event.start?

def disposed (b : Recorded β) : List (Option Nat) :=
  b.events.filterMap Event.end?

def log (b : Recorded β) (event : Event) : Recorded β :=
  { b with events := b.events ++ [event] }

def enter (b : Recorded β) : Recorded β :=
  { b.log (.started b.started.length) with session := some b.started.length }

def leave (b : Recorded β) : Recorded β :=
  { b.log (.disposed b.session) with session := none }

instance [Bundler β] : Bundler (Recorded β) where
  build b :=
    let (product, bundler) := Bundler.build b.bundler
    (product, { b with bundler := bundler }.log (.built product.isOk))
  start b :=
    match Bundler.start b.bundler with
    | (.error fault, bundler) => (.error fault, { b with bundler := bundler }.log .refused)
    | (.ok (), bundler) => (.ok (), { b with bundler := bundler }.enter)
  rebuild b :=
    let (product, bundler) := Bundler.rebuild b.bundler
    (product, { b with bundler := bundler }.log (.rebuilt b.session product.isOk))
  dispose b := { b with bundler := Bundler.dispose b.bundler }.leave

theorem start_eq [Bundler β] (b : Recorded β) : (Bundler.start b : Except Fault Unit × Recorded β) =
    match Bundler.start b.bundler with
    | (.error fault, bundler) => (.error fault, { b with bundler := bundler }.log .refused)
    | (.ok (), bundler) => (.ok (), { b with bundler := bundler }.enter) := rfl

theorem isOk_start [Bundler β] (b : Recorded β) :
    (Bundler.start b : Except Fault Unit × Recorded β).1.isOk = (Bundler.start b.bundler).1.isOk := by
  rw [start_eq]
  rcases Bundler.start b.bundler with ⟨_ | _, _⟩ <;> rfl

end Recorded

/-- What a runner is asked for between its making and its end. -/
inductive Command where
  | bundle
  | dispose
deriving DecidableEq

/-- What a command adds to the record, with the session at hand before and after it. The next session to
start is numbered `next`. -/
inductive Turn (next : Nat) : Bool → Command → Option Nat → List Event → Option Nat → Prop where
  | oneShot (succeeded : Bool) : Turn next false .bundle none [.built succeeded] none
  | refused : Turn next true .bundle none [.refused] none
  | first (succeeded : Bool) :
      Turn next true .bundle none [.started next, .rebuilt (some next) succeeded] (some next)
  | later (session : Nat) (succeeded : Bool) :
      Turn next true .bundle (some session) [.rebuilt (some session) succeeded] (some session)
  | idle (incremental : Bool) : Turn next incremental .dispose none [] none
  | ended (session : Nat) : Turn next true .dispose (some session) [.disposed (some session)] none

section Turn

variable {next : Nat} {incremental : Bool} {command : Command} {before after : Option Nat}
variable {events : List Event}

theorem Turn.balance (h : Turn next incremental command before events after) :
    events.filterMap Event.end? ++ after.toList.map some =
      before.toList.map some ++ (events.filterMap Event.start?).map some := by
  cases h <;> rfl

theorem Turn.numbered (h : Turn next incremental command before events after) :
    ∃ n, events.filterMap Event.start? = (List.range n).map (next + ·) := by
  cases h
  case first => exact ⟨1, rfl⟩
  all_goals exact ⟨0, rfl⟩

theorem Turn.built (h : Turn next false command before events after) :
    after = none ∧ events.length = [command].count .bundle ∧ ∀ e ∈ events, ∃ succeeded, e = .built succeeded := by
  cases h with
  | oneShot succeeded => exact ⟨rfl, rfl, by simp⟩
  | idle => exact ⟨rfl, rfl, by simp⟩

theorem Turn.not_built (h : Turn next true command before events after) (succeeded : Bool) :
    .built succeeded ∉ events := by
  cases h <;> simp

theorem Turn.held {session : Nat} (h : Turn next true .bundle (some session) events after) :
    after = some session ∧ ∃ succeeded, events = [.rebuilt (some session) succeeded] := by
  cases h with
  | later _ succeeded => exact ⟨rfl, succeeded, rfl⟩

theorem Turn.unheld (h : Turn next true .bundle none events after) :
    if after.isSome then
      after = some next ∧ ∃ succeeded, events = [.started next, .rebuilt after succeeded]
    else events = [.refused] := by
  cases h with
  | refused => rfl
  | first succeeded => exact ⟨rfl, succeeded, rfl⟩

theorem Turn.dispose (h : Turn next incremental .dispose before events after) :
    after = none ∧ events.filterMap Event.start? = [] := by
  cases h <;> exact ⟨rfl, rfl⟩

end Turn

namespace Runner

variable {β : Type} [Bundler β]

theorem hasSession_bundle {r : Runner β} (hincremental : r.incremental = true) (hnone : r.hasSession = false) :
    r.bundle.2.hasSession = (Bundler.start r.bundler).1.isOk := by
  obtain ⟨b, incremental, hasSession, scope⟩ := r
  cases hincremental
  cases hnone
  simp only [bundle, run]
  rcases Bundler.start b with ⟨_ | _, _⟩ <;> rfl

def perform (r : Runner β) : Command → Runner β
  | .bundle => r.bundle.2
  | .dispose => r.dispose

def performAll (r : Runner β) (commands : List Command) : Runner β :=
  commands.foldl perform r

/-- The runner as it is without the observation. -/
def unrecorded (r : Runner (Recorded β)) : Runner β :=
  ⟨r.bundler.bundler, r.incremental, r.hasSession, r.scope⟩

section Observation

/-! Observation changes nothing. -/

theorem unrecorded_run (r : Runner (Recorded β)) : r.unrecorded.run = (r.run.1, r.run.2.unrecorded) := by
  obtain ⟨b, incremental, hasSession, scope⟩ := r
  cases incremental with
  | false => rfl
  | true =>
    cases hasSession with
    | true => rfl
    | false =>
      simp only [run, unrecorded, Recorded.start_eq]
      rcases Bundler.start b.bundler with ⟨_ | _, bundler⟩ <;> rfl

theorem unrecorded_bundle (r : Runner (Recorded β)) :
    r.unrecorded.bundle = (r.bundle.1, r.bundle.2.unrecorded) := by
  simp only [bundle, unrecorded_run]
  rfl

theorem unrecorded_perform (r : Runner (Recorded β)) (command : Command) :
    (r.perform command).unrecorded = r.unrecorded.perform command := by
  cases command with
  | bundle => rw [perform, perform, unrecorded_bundle]
  | dispose =>
    obtain ⟨b, incremental, hasSession, scope⟩ := r
    cases hasSession <;> rfl

theorem unrecorded_performAll (commands : List Command) : ∀ r : Runner (Recorded β),
    (r.performAll commands).unrecorded = r.unrecorded.performAll commands := by
  induction commands with
  | nil => exact fun _ => rfl
  | cons command rest ih =>
    intro r
    rw [performAll, List.foldl_cons, performAll, List.foldl_cons, ← unrecorded_perform]
    exact ih (r.perform command)

end Observation

/-- The runner knows what session is at hand, and every other one that was started is disposed of. -/
structure Kept (r : Runner (Recorded β)) : Prop where
  held : r.hasSession = r.bundler.session.isSome
  oneShot : r.incremental = false → r.bundler.session = none
  numbered : r.bundler.started = List.range r.bundler.started.length
  ended : r.bundler.disposed ++ r.bundler.session.toList.map some = r.bundler.started.map some

/-- From `r`, a command has led to `r'`, with these events. -/
structure Turned (command : Command) (r r' : Runner (Recorded β)) (events : List Event) : Prop where
  recorded : r'.bundler.events = r.bundler.events ++ events
  turn : Turn r.bundler.started.length r.incremental command r.bundler.session events r'.bundler.session
  held : r'.hasSession = r'.bundler.session.isSome
  incremental : r'.incremental = r.incremental

section Step

variable {r : Runner (Recorded β)}

theorem turned_start (b : β) (events : List Event) (scope : Scope) :
    let r : Runner (Recorded β) := ⟨⟨b, events, none⟩, true, false, scope⟩
    ∃ events, Turned .bundle r r.bundle.2 events := by
  intro r
  simp only [bundle, run, r, Recorded.start_eq]
  rcases Bundler.start b with ⟨fault | _, bundler⟩
  · exact ⟨[.refused], rfl, .refused, rfl, rfl⟩
  · have hnested := List.append_assoc events [.started r.bundler.started.length]
      [.rebuilt (some r.bundler.started.length) (Bundler.rebuild bundler).1.isOk]
    exact ⟨_, hnested, .first _, rfl, rfl⟩

theorem turned_bundle (h : r.Kept) : ∃ events, Turned .bundle r r.bundle.2 events := by
  obtain ⟨⟨b, events, session⟩, incremental, hasSession, scope⟩ := r
  obtain rfl : hasSession = session.isSome := h.held
  cases incremental with
  | false =>
    obtain rfl : session = none := h.oneShot rfl
    exact ⟨[.built _], rfl, .oneShot _, rfl, rfl⟩
  | true =>
    cases session with
    | none => exact turned_start b events scope
    | some session => exact ⟨[.rebuilt (some session) _], rfl, .later _ _, rfl, rfl⟩

theorem turned_dispose (h : r.Kept) : ∃ events, Turned .dispose r r.dispose events := by
  obtain ⟨⟨b, events, session⟩, incremental, hasSession, scope⟩ := r
  obtain rfl : hasSession = session.isSome := h.held
  cases session with
  | none => exact ⟨[], (List.append_nil _).symm, .idle _, rfl, rfl⟩
  | some session =>
    cases incremental with
    | false => cases h.oneShot rfl
    | true => exact ⟨[.disposed (some session)], rfl, .ended _, rfl, rfl⟩

theorem turned_perform (h : r.Kept) (command : Command) :
    ∃ events, Turned command r (r.perform command) events := by
  cases command with
  | bundle => exact turned_bundle h
  | dispose => exact turned_dispose h

omit [Bundler β] in
theorem Turned.kept {command : Command} {r' : Runner (Recorded β)} {events : List Event}
    (hturned : Turned command r r' events) (h : r.Kept) : r'.Kept := by
  have hstarted : r'.bundler.started = r.bundler.started ++ events.filterMap Event.start? := by
    rw [Recorded.started, hturned.recorded, List.filterMap_append]
    rfl
  have hdisposed : r'.bundler.disposed = r.bundler.disposed ++ events.filterMap Event.end? := by
    rw [Recorded.disposed, hturned.recorded, List.filterMap_append]
    rfl
  refine ⟨hturned.held, fun honce => ?_, ?_, ?_⟩
  · have hturn := hturned.turn
    rw [← hturned.incremental, honce] at hturn
    exact hturn.built.1
  · obtain ⟨n, hn⟩ := hturned.turn.numbered
    have hlength : r'.bundler.started.length = r.bundler.started.length + n := by
      rw [hstarted, hn, List.length_append, List.length_map, List.length_range]
    rw [hlength, List.range_add, ← h.numbered, ← hn, hstarted]
  · -- the session that was at hand is disposed of now or still at hand
    rw [hstarted, hdisposed, List.append_assoc, hturned.turn.balance, ← List.append_assoc, h.ended, List.map_append]

end Step

structure Reaches (incremental : Bool) (commands : List Command) (r : Runner (Recorded β)) : Prop where
  kept : r.Kept
  fixed : r.incremental = incremental
  built : incremental = false → r.bundler.events.length = commands.count .bundle ∧
    ∀ e ∈ r.bundler.events, ∃ succeeded, e = .built succeeded
  notBuilt : incremental = true → ∀ succeeded, .built succeeded ∉ r.bundler.events

section Run

variable {r : Runner (Recorded β)} {incremental : Bool}

omit [Bundler β] in
theorem Reaches.turned {done : List Command} {command : Command} {r' : Runner (Recorded β)} {events : List Event}
    (h : r.Reaches incremental done) (hturned : Turned command r r' events) :
    r'.Reaches incremental (done ++ [command]) := by
  have hturn := hturned.turn
  rw [h.fixed] at hturn
  refine ⟨hturned.kept h.kept, hturned.incremental.trans h.fixed, fun honce => ?_,
    fun hsessions succeeded hmem => ?_⟩
  · obtain ⟨hlength, hbuilt⟩ := h.built honce
    rw [honce] at hturn
    obtain ⟨-, hturnLength, hturnBuilt⟩ := hturn.built
    rw [hturned.recorded]
    constructor
    · rw [List.length_append, List.count_append, hlength, hturnLength]
    · intro e he
      exact (List.mem_append.mp he).elim (hbuilt e) (hturnBuilt e)
  · rw [hsessions] at hturn
    rw [hturned.recorded] at hmem
    exact (List.mem_append.mp hmem).elim (h.notBuilt hsessions succeeded) (hturn.not_built succeeded)

theorem Reaches.performAll (commands : List Command) : ∀ {done : List Command} {r : Runner (Recorded β)},
    r.Reaches incremental done → (r.performAll commands).Reaches incremental (done ++ commands) := by
  induction commands with
  | nil =>
    intro done r h
    rw [List.append_nil]
    exact h
  | cons command rest ih =>
    intro done r h
    obtain ⟨events, hturned⟩ := turned_perform h.kept command
    rw [List.append_cons]
    exact ih (h.turned hturned)

omit [Bundler β] in
theorem reaches_fresh (b : β) (incremental : Bool) (scope : Scope) :
    (fresh (Recorded.begin b) incremental scope).Reaches incremental [] where
  kept := ⟨rfl, fun _ => rfl, rfl, rfl⟩
  fixed := rfl
  built _ := ⟨rfl, fun _ he => by cases he⟩
  notBuilt _ _ he := by cases he

theorem disposed_drop (h : r.Kept) :
    r.drop.started = r.bundler.started ∧ r.drop.disposed = r.bundler.started.map some := by
  obtain ⟨events, hturned⟩ := turned_dispose h
  obtain ⟨hnone, hstart⟩ := hturned.turn.dispose
  have hstarted : r.drop.started = r.bundler.started := by
    rw [drop, Recorded.started, hturned.recorded, List.filterMap_append, hstart, List.append_nil]
    rfl
  have hended := (hturned.kept h).ended
  rw [hnone] at hended
  refine ⟨hstarted, ?_⟩
  rw [← hstarted]
  exact (List.append_nil _).symm.trans hended

omit [Bundler β] in
theorem length_started (h : r.Kept) :
    r.bundler.started.length = r.bundler.disposed.length + r.hasSession.toNat := by
  have hended := congrArg List.length h.ended
  rw [List.length_append, List.length_map, List.length_map] at hended
  rw [← hended, h.held]
  cases r.bundler.session <;> rfl

theorem bundle_held (h : r.Kept) (hincremental : r.incremental = true) (hsession : r.hasSession = true) :
    r.bundle.2.hasSession = true ∧ r.bundle.2.bundler.session = r.bundler.session ∧
      ∃ succeeded, r.bundle.2.bundler.events = r.bundler.events ++ [.rebuilt r.bundler.session succeeded] := by
  rw [h.held] at hsession
  obtain ⟨session, hsome⟩ := Option.isSome_iff_exists.mp hsession
  obtain ⟨events, hturned⟩ := turned_bundle h
  have hturn := hturned.turn
  rw [hincremental, hsome] at hturn
  obtain ⟨hafter, succeeded, hevents⟩ := hturn.held
  refine ⟨?_, hafter.trans hsome.symm, succeeded, ?_⟩
  · rw [hturned.held, hafter]
    rfl
  · rw [hturned.recorded, hevents, hsome]

theorem bundle_unheld (h : r.Kept) (hincremental : r.incremental = true) (hnone : r.hasSession = false) :
    r.bundle.2.hasSession = (Bundler.start r.bundler.bundler).1.isOk ∧
      if r.bundle.2.hasSession then
        r.bundle.2.bundler.session = some r.bundler.started.length ∧
          ∃ succeeded, r.bundle.2.bundler.events = r.bundler.events ++
            [.started r.bundler.started.length, .rebuilt r.bundle.2.bundler.session succeeded]
      else r.bundle.2.bundler.events = r.bundler.events ++ [.refused] := by
  have hstart := hasSession_bundle hincremental hnone
  refine ⟨hstart.trans (Recorded.isOk_start _), ?_⟩
  rw [h.held, Option.isSome_eq_false_iff, Option.isNone_iff_eq_none] at hnone
  obtain ⟨events, hturned⟩ := turned_bundle h
  have hturn := hturned.turn
  rw [hincremental, hnone] at hturn
  have hevents := hturn.unheld
  rw [← hturned.held] at hevents
  rw [hturned.recorded]
  split at hevents
  · rename_i hsession
    obtain ⟨hafter, succeeded, rfl⟩ := hevents
    rw [if_pos hsession]
    exact ⟨hafter, succeeded, rfl⟩
  · rename_i hsession
    rw [if_neg hsession, hevents]

/-- Sessions are started one at a time and only where they are needed, rebuilt in every pass, kept through
failed rebuilds, and disposed of once. -/
theorem sessions_performAll (b : β) (incremental : Bool) (scope : Scope) (commands : List Command) :
    let last := (fresh (Recorded.begin b) incremental scope).performAll commands
    let next := last.bundle.2
    last.unrecorded = (fresh b incremental scope).performAll commands ∧
    last.bundler.started.length = last.bundler.disposed.length + last.hasSession.toNat ∧
    (incremental = false →
      last.bundler.started = [] ∧ last.bundler.events.length = commands.count .bundle ∧
        ∀ e ∈ last.bundler.events, ∃ succeeded, e = .built succeeded) ∧
    (incremental = true →
      (∀ succeeded, .built succeeded ∉ last.bundler.events) ∧
      (last.hasSession = true →
        next.hasSession = true ∧ next.bundler.session = last.bundler.session ∧
          ∃ succeeded, next.bundler.events = last.bundler.events ++ [.rebuilt last.bundler.session succeeded]) ∧
      (last.hasSession = false →
        next.hasSession = (Bundler.start last.bundler.bundler).1.isOk ∧
          if next.hasSession then
            next.bundler.session = some last.bundler.started.length ∧
              ∃ succeeded, next.bundler.events = last.bundler.events ++
                [.started last.bundler.started.length, .rebuilt next.bundler.session succeeded]
          else next.bundler.events = last.bundler.events ++ [.refused])) ∧
    last.drop.started = last.bundler.started ∧ last.drop.started.Nodup ∧
      last.drop.disposed = last.drop.started.map some := by
  intro last next
  have hreaches : last.Reaches incremental commands := (reaches_fresh b incremental scope).performAll commands
  have hkept := hreaches.kept
  obtain ⟨hstarted, hdisposed⟩ := disposed_drop hkept
  refine ⟨unrecorded_performAll commands _, length_started hkept, fun honce => ?_, fun hsessions => ?_,
    hstarted, ?_, hstarted ▸ hdisposed⟩
  · obtain ⟨hlength, hbuilt⟩ := hreaches.built honce
    refine ⟨List.filterMap_eq_nil_iff.mpr fun e he => ?_, hlength, hbuilt⟩
    obtain ⟨succeeded, rfl⟩ := hbuilt e he
    rfl
  · have hincremental := hreaches.fixed.trans hsessions
    exact ⟨hreaches.notBuilt hsessions, bundle_held hkept hincremental, bundle_unheld hkept hincremental⟩
  · rw [hstarted, hkept.numbered]
    exact List.nodup_range

def troubled : Playback :=
  ⟨[.ok ⟨[], Metafile.empty, []⟩, .error (.broken "gone"), .ok ⟨[], Metafile.empty, []⟩],
    [.error (.broken "port in use"), .ok ()], []⟩

example : ((fresh (Recorded.begin troubled) true ⟨[], ⟨"/ws"⟩, ⟨"/ws"⟩, fun _ _ => true⟩).performAll
    [.bundle, .dispose, .bundle, .bundle, .dispose, .dispose, .bundle]).drop.events =
      [.refused, .started 0, .rebuilt (some 0) true, .rebuilt (some 0) false, .disposed (some 0),
        .started 1, .rebuilt (some 1) true, .disposed (some 1)] := by
  rfl

end Run

end Runner

end Recompile.Bundle
