import Modeld.Daemon.ServerFrames
import Modeld.Host.Simulation
import Modeld.Runs.CatalogueRuns

/-!
# Connections to a catalogue

Any number of connections, whose turns come in any order, between stores and handoffs. A server that
holds a catalogue in the place of a storage root would write the same bytes to each of them.
-/

namespace Modeld

open Host Program

/-- What happens at a daemon: a turn of the loop of a connection, whose writes succeed or fail, or
something else that a client does. -/
inductive ServerEvent
  | turn (conn : Nat) (selected : Selected) (taken : Except IoError Unit)
  | other (e : ClientEvent)

/-- What clients get of it. -/
inductive ServerReply
  | sent (conn : Nat) (messages : List Bytes)
  | other (reply : ClientReply)

/-- A server: what it stores, and how the loops of its connections stand. -/
structure Server (σ : Type) where
  state : σ
  conns : Nat → Outcome

namespace Server

variable {σ : Type}

/-- No message has come on any connection. -/
def start (state : σ) : Server σ := ⟨state, fun _ => .waiting []⟩

section Step

variable (wire : WireLibrary) (exec : Except IoError Unit → (o : ConnCall) → σ → ConnReply o × σ)
  (perform : ClientEvent → σ → ClientReply × σ)

/-- One event. A connection whose loop has returned takes no more turns. -/
def step (s : Server σ) : ServerEvent → ServerReply × Server σ
  | .turn k selected taken =>
    match s.conns k with
    | .waiting buffer =>
      (.sent k (written ((clientLoop wire [selected] buffer).calls (exec taken) s.state)),
        ⟨((clientLoop wire [selected] buffer).run (exec taken) s.state).2, Function.update s.conns k
          ((clientLoop wire [selected] buffer).run (exec taken) s.state).1⟩)
    | _ => (.sent k [], s)
  | .other e => (.other (perform e s.state).1, ⟨(perform e s.state).2, s.conns⟩)

/-- A run of events. -/
def stepAll (s : Server σ) : List ServerEvent → List ServerReply × Server σ
  | [] => ([], s)
  | e :: events =>
    ((step wire exec perform s e).1 :: (stepAll (step wire exec perform s e).2 events).1,
      (stepAll (step wire exec perform s e).2 events).2)

end Step

end Server

/-- A turn at the daemon. -/
def daemonExec (inst : Installation) (taken : Except IoError Unit) : (o : ConnCall) → Fs → ConnReply o × Fs
  | .dispatch request, h => (dispatchCall inst.json request inst.ctx).run Fs.exec h
  | .writeAll _, h => (taken, h)
  | .flush, h => (taken, h)

/-- A turn at a catalogue. -/
def Catalogue.exec (inst : Installation) (taken : Except IoError Unit) :
    (o : ConnCall) → Catalogue → ConnReply o × Catalogue
  | .dispatch request, c => c.answer inst.json request
  | .writeAll _, c => (taken, c)
  | .flush, c => (taken, c)

/-- The daemon. -/
def daemonServer (inst : Installation) (wire : WireLibrary) :
    Server Fs → List ServerEvent → List ServerReply × Server Fs :=
  Server.stepAll wire (daemonExec inst) fun e h => (e.program inst).run Fs.exec h

/-- A server that holds a catalogue. -/
def catalogueServer (inst : Installation) (wire : WireLibrary) :
    Server Catalogue → List ServerEvent → List ServerReply × Server Catalogue :=
  Server.stepAll wire (Catalogue.exec inst) fun e c => c.step inst e

/-- How many bytes an event may store. -/
def ServerEvent.bytes : ServerEvent → Nat
  | .turn .. => 0
  | .other e => e.bytes

variable {inst : Installation} {wire : WireLibrary}

/-- The storage root stands for the catalogue, in which there is so much at most. -/
def StandsWithin (root : Path) (most : Nat) (h : Fs) (c : Catalogue) : Prop :=
  Stands root h c ∧ c.total ≤ most

theorem simulates_daemonExec {most : Nat} (hmost : most < 2 ^ 64) (taken : Except IoError Unit) :
    Simulates (StandsWithin inst.root most) (daemonExec inst taken) (Catalogue.exec inst taken) := by
  rintro o h c ⟨hs, hle⟩
  cases o with
  | dispatch request =>
    obtain ⟨hreply, hs'⟩ := hs.run_call (hle.trans_lt hmost) inst.json request
    exact ⟨hreply, hs', (c.total_step inst (.call request)).trans hle⟩
  | writeAll bytes => exact ⟨rfl, hs, hle⟩
  | flush => exact ⟨rfl, hs, hle⟩

/-- What is written depends on the calls alone. -/
theorem written_congr {σ τ : Type} {calls : List (ConnCall × σ)} {calls' : List (ConnCall × τ)}
    (h : calls.map (·.1) = calls'.map (·.1)) : written calls = written calls' := by
  induction calls generalizing calls' with
  | nil =>
    cases calls' with
    | nil => rfl
    | cons x calls' => cases h
  | cons x calls ih =>
    cases calls' with
    | nil => cases h
    | cons y calls' =>
      obtain ⟨hxy, hrest⟩ := List.cons.inj h
      have hone : written [x] = written [y] := by
        obtain ⟨o, s⟩ := x
        obtain ⟨o', t⟩ := y
        obtain rfl : o = o' := hxy
        rfl
      have hboth := congrArg₂ (· ++ ·) hone (ih hrest)
      rwa [← written_append, ← written_append] at hboth

/-- The servers agree, but for what their states are. -/
def Agree (inst : Installation) (most : Nat) (s : Server Fs) (t : Server Catalogue) : Prop :=
  Stands inst.root s.state t.state ∧ s.conns = t.conns ∧ t.state.total ≤ most

/-- One event. -/
theorem Agree.step (wire : WireLibrary) {most : Nat} {s : Server Fs} {t : Server Catalogue} (h : Agree inst most s t)
    (e : ServerEvent) (hmost : most + e.bytes < 2 ^ 64) :
    (s.step wire (daemonExec inst) (fun e h => (e.program inst).run Fs.exec h) e).1 =
        (t.step wire (Catalogue.exec inst) (fun e c => c.step inst e) e).1 ∧
      Agree inst (most + e.bytes)
        (s.step wire (daemonExec inst) (fun e h => (e.program inst).run Fs.exec h) e).2
        (t.step wire (Catalogue.exec inst) (fun e c => c.step inst e) e).2 := by
  obtain ⟨hs, hconns, hle⟩ := h
  cases e with
  | turn k selected taken =>
    rw [Server.step, Server.step, hconns]
    cases hconn : t.conns k with
    | waiting buffer =>
      have hsim : Simulates (StandsWithin inst.root most) (daemonExec inst taken)
          (Catalogue.exec inst taken) := simulates_daemonExec (by omega) taken
      obtain ⟨houtcome, hs', hle'⟩ := hsim.run (clientLoop wire [selected] buffer) ⟨hs, hle⟩
      have hcalls := hsim.calls (clientLoop wire [selected] buffer) (s := s.state) ⟨hs, hle⟩
      dsimp only
      rw [written_congr hcalls, houtcome]
      exact ⟨rfl, hs', rfl, hle'⟩
    | _ => exact ⟨rfl, hs, hconns, hle⟩
  | other e =>
    rw [ServerEvent.bytes] at hmost
    obtain ⟨hreply, hs'⟩ := hs.step (by omega) e
    have htotal := t.state.total_step inst e
    rw [Server.step, Server.step, hreply]
    refine ⟨rfl, hs', hconns, ?_⟩
    rw [ServerEvent.bytes]
    dsimp only
    omega

/-- A run of events. -/
theorem Agree.stepAll (events : List ServerEvent) {most : Nat} {s : Server Fs} {t : Server Catalogue}
    (h : Agree inst most s t) (hsum : most + (events.map ServerEvent.bytes).sum < 2 ^ 64) :
    (daemonServer inst wire s events).1 = (catalogueServer inst wire t events).1 := by
  induction events generalizing s t most with
  | nil => rfl
  | cons e events ih =>
    rw [List.map_cons, List.sum_cons, ← Nat.add_assoc] at hsum
    obtain ⟨hreply, hagree⟩ := h.step wire e (by omega)
    have hrest := ih hagree hsum
    unfold daemonServer catalogueServer at hrest ⊢
    rw [Server.stepAll, Server.stepAll]
    dsimp only
    rw [hreply, hrest]

end Modeld
