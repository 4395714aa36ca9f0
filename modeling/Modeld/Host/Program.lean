import Mathlib

/-!
# Programs over an interface of calls

A program is a tree: it is done with a value, or it makes one call and goes on from whatever the
call replies. The calls are uninterpreted, so one definition of a program serves for running it
alone, for running it on a system whose calls may fail, and for interleaving it with others.

`wp` folds a specification of single calls over the tree. The two instances used are `Keeps`, where
the specification speaks of the call and its reply alone, and `Safely`, where it also speaks of the
state the call is made in.
-/

namespace Host

universe u

/-- A program that makes calls `o : Op`, each answered by a `Resp o`. -/
inductive Program {Op : Type} (Resp : Op → Type) (α : Type) : Type
  | done (value : α)
  | call (op : Op) (next : Resp op → Program Resp α)

variable {Op : Type} {Resp : Op → Type} {α β γ : Type}

namespace Program

/-- Go on with `f` once the program is done. -/
def bind : Program Resp α → (α → Program Resp β) → Program Resp β
  | done a, f => f a
  | call o k, f => call o fun r => (k r).bind f

instance : Monad (Program Resp) where
  pure := done
  bind := bind

/-- The value of a program that is done. -/
def value? : Program Resp α → Option α
  | done a => some a
  | call _ _ => none

theorem value?_eq_some {p : Program Resp α} {a : α} : p.value? = some a ↔ p = done a := by
  cases p <;> simp [value?]

/-- The program that makes one call and returns its reply. -/
def perform (o : Op) : Program Resp (Resp o) := call o done

@[simp] theorem pure_eq (a : α) : (pure a : Program Resp α) = done a := rfl

@[simp] theorem done_bind (a : α) (f : α → Program Resp β) : (done a >>= f) = f a := rfl

@[simp] theorem call_bind (o : Op) (k : Resp o → Program Resp α) (f : α → Program Resp β) :
    (call o k >>= f) = call o fun r => k r >>= f := rfl

@[simp] theorem perform_bind (o : Op) (f : Resp o → Program Resp β) :
    (perform o >>= f) = call o f := rfl

theorem id_map_eq (p : Program Resp α) : id <$> p = p := by
  induction p with
  | done a => rfl
  | call o k ih => exact congrArg (call o) (funext ih)

theorem bind_assoc_eq (p : Program Resp α) (f : α → Program Resp β) (g : β → Program Resp γ) :
    p >>= f >>= g = p >>= fun a => f a >>= g := by
  induction p with
  | done a => rfl
  | call o k ih => exact congrArg (call o) (funext ih)

instance : LawfulMonad (Program Resp) := LawfulMonad.mk' _ id_map_eq (fun _ _ => rfl) bind_assoc_eq

/-! ### Specifications of single calls, folded over the tree -/

section Wp

variable {l : Type u} (Φ : (o : Op) → (Resp o → l) → l)

/-- The weakest precondition of a program, where `Φ` gives that of one call. -/
def wp : Program Resp α → (α → l) → l
  | done a, post => post a
  | call o k, post => Φ o fun r => (k r).wp post

@[simp] theorem wp_done (a : α) (post : α → l) : (done a : Program Resp α).wp Φ post = post a := rfl

@[simp] theorem wp_call (o : Op) (k : Resp o → Program Resp α) (post : α → l) :
    (call o k).wp Φ post = Φ o fun r => (k r).wp Φ post := rfl

theorem wp_bind (p : Program Resp α) (f : α → Program Resp β) (post : β → l) :
    (p >>= f).wp Φ post = p.wp Φ fun a => (f a).wp Φ post := by
  induction p with
  | done a => rfl
  | call o k ih => exact congrArg (Φ o) (funext ih)

end Wp

/-! ### A discipline on calls -/

/-- Every call the program can make satisfies `may`, and every value it can return satisfies `Q`,
as long as the replies it gets satisfy `reply`. -/
def Keeps (may : Op → Prop) (reply : (o : Op) → Resp o → Prop) (p : Program Resp α)
    (Q : α → Prop) : Prop :=
  p.wp (fun o k => may o ∧ ∀ r, reply o r → k r) Q

variable {may may' : Op → Prop} {reply : (o : Op) → Resp o → Prop} {Q : α → Prop}

@[simp] theorem keeps_done (a : α) : Keeps may reply (done a : Program Resp α) Q ↔ Q a := Iff.rfl

@[simp] theorem keeps_call (o : Op) (k : Resp o → Program Resp α) :
    Keeps may reply (call o k) Q ↔ may o ∧ ∀ r, reply o r → Keeps may reply (k r) Q := Iff.rfl

theorem keeps_bind (p : Program Resp α) (f : α → Program Resp β) (R : β → Prop) :
    Keeps may reply (p >>= f) R ↔ Keeps may reply p fun a => Keeps may reply (f a) R :=
  iff_of_eq (wp_bind _ p f R)

theorem Keeps.mono {p : Program Resp α} {Q' : α → Prop} (h : Keeps may reply p Q)
    (hmay : ∀ o, may o → may' o) (hQ : ∀ a, Q a → Q' a) : Keeps may' reply p Q' := by
  induction p with
  | done a => exact hQ a h
  | call o k ih => exact ⟨hmay o h.1, fun r hr => ih r (h.2 r hr)⟩

theorem Keeps.perform {o : Op} {f : Resp o → Program Resp β} {R : β → Prop} (hmay : may o)
    (hf : ∀ r, reply o r → Keeps may reply (f r) R) : Keeps may reply (perform o >>= f) R :=
  ⟨hmay, hf⟩

theorem Keeps.bind {p : Program Resp α} {f : α → Program Resp β} {R : β → Prop}
    (h : Keeps may reply p Q) (hf : ∀ a, Q a → Keeps may reply (f a) R) :
    Keeps may reply (p >>= f) R :=
  (keeps_bind p f R).2 (h.mono (fun _ ho => ho) hf)

/-- Two disciplines at once. -/
theorem Keeps.and {p : Program Resp α} {Q' : α → Prop} (h : Keeps may reply p Q)
    (h' : Keeps may' reply p Q') :
    Keeps (fun o => may o ∧ may' o) reply p fun a => Q a ∧ Q' a := by
  induction p with
  | done a => exact ⟨h, h'⟩
  | call o k ih => exact ⟨⟨h.1, h'.1⟩, fun r hr => ih r (h.2 r hr) (h'.2 r hr)⟩

/-- What holds whatever the replies holds for some of them. -/
theorem Keeps.of_true {p : Program Resp α} (h : Keeps may (fun _ _ => True) p Q) :
    Keeps may reply p Q := by
  induction p with
  | done a => exact h
  | call o k ih => exact ⟨h.1, fun r _ => ih r (h.2 r trivial)⟩

/-- Every call the program can make satisfies `may`, whatever the replies. -/
abbrev Only (may : Op → Prop) (p : Program Resp α) : Prop :=
  Keeps may (fun _ _ => True) p fun _ => True

theorem only_done (a : α) : Only may (done a : Program Resp α) := trivial

theorem only_true (p : Program Resp α) : Only (fun _ => True) p := by
  induction p with
  | done a => exact trivial
  | call o k ih => exact ⟨trivial, fun r _ => ih r⟩

theorem Only.perform {o : Op} {f : Resp o → Program Resp β} (hmay : may o)
    (hf : ∀ r, Only may (f r)) : Only may (Program.perform o >>= f) := ⟨hmay, fun r _ => hf r⟩

theorem only_perform {o : Op} (hmay : may o) : Only may (Program.perform o : Program Resp _) :=
  ⟨hmay, fun _ _ => trivial⟩

theorem Only.bind {p : Program Resp α} {f : α → Program Resp β} (h : Only may p)
    (hf : ∀ a, Only may (f a)) : Only may (p >>= f) := Keeps.bind h fun a _ => hf a

theorem Only.mono {p : Program Resp α} (h : Only may p) (hmay : ∀ o, may o → may' o) :
    Only may' p := Keeps.mono h hmay fun _ => id

attribute [irreducible] Keeps

/-! ### Running alone -/

variable {σ : Type}

/-- Run a program to its end on a system that answers each call by `exec`. -/
def run (exec : (o : Op) → σ → Resp o × σ) : Program Resp α → σ → α × σ
  | done a, s => (a, s)
  | call o k, s => (k (exec o s).1).run exec (exec o s).2

variable (exec : (o : Op) → σ → Resp o × σ)

@[simp] theorem run_done (a : α) (s : σ) : (done a : Program Resp α).run exec s = (a, s) := rfl

@[simp] theorem run_call (o : Op) (k : Resp o → Program Resp α) (s : σ) :
    (call o k).run exec s = (k (exec o s).1).run exec (exec o s).2 := rfl

theorem run_bind (p : Program Resp α) (f : α → Program Resp β) (s : σ) :
    (p >>= f).run exec s = (f (p.run exec s).1).run exec (p.run exec s).2 := by
  induction p generalizing s with
  | done a => rfl
  | call o k ih => exact ih _ _

/-! ### Calls that are programs themselves -/

section Expand

variable {Op' : Type} {Resp' : Op' → Type} (f : (o : Op) → Program Resp' (Resp o))

/-- Make every call by a program of another interface. -/
def expand : Program Resp α → Program Resp' α
  | done a => done a
  | call o k => f o >>= fun r => (k r).expand

@[simp] theorem expand_done (a : α) : (done a : Program Resp α).expand f = done a := rfl

@[simp] theorem expand_call (o : Op) (k : Resp o → Program Resp α) :
    (call o k).expand f = f o >>= fun r => (k r).expand f := rfl

theorem run_expand (exec : (o : Op') → σ → Resp' o × σ) (p : Program Resp α) (s : σ) :
    (p.expand f).run exec s = p.run (fun o s => (f o).run exec s) s := by
  induction p generalizing s with
  | done a => rfl
  | call o k ih =>
    rw [expand_call, run_bind, ih, run_call]

end Expand

/-- Running a program that keeps a discipline keeps what the discipline protects. -/
theorem Keeps.run {I : σ → Prop} {p : Program Resp α} {s : σ}
    (hcall : ∀ o s, may o → I s → reply o (exec o s).1 ∧ I (exec o s).2)
    (h : Keeps may reply p Q) (hI : I s) : Q (p.run exec s).1 ∧ I (p.run exec s).2 := by
  induction p generalizing s with
  | done a => exact ⟨(keeps_done a).1 h, hI⟩
  | call o k ih =>
    rw [keeps_call] at h
    obtain ⟨hr, hI'⟩ := hcall o s h.1 hI
    exact ih _ (h.2 _ hr) hI'

theorem Only.run {I : σ → Prop} {p : Program Resp α} {s : σ}
    (hcall : ∀ o s, may o → I s → I (exec o s).2) (h : Only may p) (hI : I s) :
    I (p.run exec s).2 :=
  (Keeps.run exec (fun o s ho hs => ⟨trivial, hcall o s ho hs⟩) h hI).2

/-- The calls that a run makes, each with the state that it is made in. -/
def calls (exec : (o : Op) → σ → Resp o × σ) : Program Resp α → σ → List (Op × σ)
  | done _, _ => []
  | call o k, s => (o, s) :: (k (exec o s).1).calls exec (exec o s).2

theorem calls_bind (p : Program Resp α) (f : α → Program Resp β) (s : σ) :
    (p >>= f).calls exec s =
      p.calls exec s ++ (f (p.run exec s).1).calls exec (p.run exec s).2 := by
  induction p generalizing s with
  | done a => rfl
  | call o k ih => exact congrArg (List.cons (o, s)) (ih _ _)

/-- The calls of a run keep to the discipline of the program, in states that it protects. -/
theorem Keeps.calls {I : σ → Prop} {p : Program Resp α} {s : σ}
    (hcall : ∀ o s, may o → I s → reply o (exec o s).1 ∧ I (exec o s).2)
    (h : Keeps may reply p Q) (hI : I s) : ∀ x ∈ p.calls exec s, may x.1 ∧ I x.2 := by
  induction p generalizing s with
  | done a => exact nofun
  | call o k ih =>
    rw [keeps_call] at h
    obtain ⟨hr, hI'⟩ := hcall o s h.1 hI
    intro x hx
    rcases List.mem_cons.1 hx with rfl | hx
    · exact ⟨h.1, hI⟩
    · exact ih _ (h.2 _ hr) hI' x hx

/-! ### Running alone on a system that may answer in several ways -/

/-- One call takes the system from one state to another while giving a reply. -/
abbrev System (Resp : Op → Type) (σ : Type) := (o : Op) → σ → Resp o → σ → Prop

/-- The system that always answers by `exec`. -/
def reliable : System Resp σ := fun o s r s' => exec o s = (r, s')

/-- From `s`, the program keeps `I` after every call, whatever the answers, and ends in `Q`. -/
def Safely (sys : System Resp σ) (I : σ → Prop) (p : Program Resp α) (Q : α → σ → Prop) :
    σ → Prop :=
  p.wp (l := σ → Prop) (fun o k s => ∀ r s', sys o s r s' → I s' ∧ k r s') Q

section Safely

variable {sys : System Resp σ} {I : σ → Prop} {Q : α → σ → Prop} {s : σ}

@[simp] theorem safely_done (a : α) : Safely sys I (done a : Program Resp α) Q s ↔ Q a s := Iff.rfl

@[simp] theorem safely_call (o : Op) (k : Resp o → Program Resp α) :
    Safely sys I (call o k) Q s ↔
      ∀ r s', sys o s r s' → I s' ∧ Safely sys I (k r) Q s' := Iff.rfl

theorem safely_bind (p : Program Resp α) (f : α → Program Resp β) (R : β → σ → Prop) :
    Safely sys I (p >>= f) R s ↔ Safely sys I p (fun a => Safely sys I (f a) R) s :=
  iff_of_eq (congrFun (wp_bind (l := σ → Prop) _ p f R) s)

theorem Safely.mono {p : Program Resp α} {Q' : α → σ → Prop} (h : Safely sys I p Q s)
    (hQ : ∀ a s, Q a s → Q' a s) : Safely sys I p Q' s := by
  induction p generalizing s with
  | done a => exact hQ a s h
  | call o k ih => exact fun r s' hs => ⟨(h r s' hs).1, ih r (h r s' hs).2⟩

theorem Safely.perform {o : Op} {f : Resp o → Program Resp β} {R : β → σ → Prop}
    (h : ∀ r s', sys o s r s' → I s' ∧ Safely sys I (f r) R s') :
    Safely sys I (perform o >>= f) R s := h

theorem Safely.bind {p : Program Resp α} {f : α → Program Resp β} {R : β → σ → Prop}
    (h : Safely sys I p Q s) (hf : ∀ a s, Q a s → Safely sys I (f a) R s) :
    Safely sys I (p >>= f) R s :=
  (safely_bind p f R).2 (h.mono hf)

/-- A program that keeps a discipline is safe for every invariant that the discipline protects. -/
theorem Keeps.safely {may : Op → Prop} {reply : (o : Op) → Resp o → Prop} {p : Program Resp α}
    {R : α → Prop} (hcall : ∀ o s r s', may o → I s → sys o s r s' → reply o r ∧ I s')
    (h : Keeps may reply p R) (hI : I s) : Safely sys I p (fun a s => R a ∧ I s) s := by
  induction p generalizing s with
  | done a => exact ⟨(keeps_done a).1 h, hI⟩
  | call o k ih =>
    rw [keeps_call] at h
    intro r s' hs
    obtain ⟨hr, hI'⟩ := hcall o s r s' h.1 hI hs
    exact ⟨hI', ih r (h.2 r hr) hI'⟩

/-- A weaker invariant. -/
theorem Safely.weaken {J : σ → Prop} {p : Program Resp α} (h : Safely sys I p Q s)
    (hI : ∀ s, I s → J s) : Safely sys J p Q s := by
  induction p generalizing s with
  | done a => exact h
  | call o k ih => exact fun r s' hs => ⟨hI s' (h r s' hs).1, ih r (h r s' hs).2⟩

/-- Fewer answers. -/
theorem Safely.of_system {sys' : System Resp σ} {p : Program Resp α}
    (hsys : ∀ o s r s', sys' o s r s' → sys o s r s') (h : Safely sys I p Q s) :
    Safely sys' I p Q s := by
  induction p generalizing s with
  | done a => exact h
  | call o k ih =>
    intro r s' hs
    obtain ⟨hI, hk⟩ := h r s' (hsys o s r s' hs)
    exact ⟨hI, ih r hk⟩

/-- Two results at once. -/
theorem Safely.and {J : σ → Prop} {Q' : α → σ → Prop} {p : Program Resp α}
    (h : Safely sys I p Q s) (h' : Safely sys J p Q' s) :
    Safely sys (fun s => I s ∧ J s) p (fun a s => Q a s ∧ Q' a s) s := by
  induction p generalizing s with
  | done a => exact ⟨h, h'⟩
  | call o k ih =>
    intro r s' hs
    obtain ⟨hI, hk⟩ := h r s' hs
    obtain ⟨hJ, hk'⟩ := h' r s' hs
    exact ⟨⟨hI, hJ⟩, ih r hk hk'⟩

/-- The invariant holds at the end as well. -/
theorem Safely.and_last {p : Program Resp α} (h : Safely sys I p Q s) (hI : I s) :
    Safely sys I p (fun a s => Q a s ∧ I s) s := by
  induction p generalizing s with
  | done a => exact ⟨h, hI⟩
  | call o k ih => exact fun r s' hs => ⟨(h r s' hs).1, ih r (h r s' hs).2 (h r s' hs).1⟩

/-- What is safe holds of every run whose answers are among those of the system. -/
theorem Safely.run {p : Program Resp α} (hexec : ∀ o s, sys o s (exec o s).1 (exec o s).2)
    (h : Safely sys I p Q s) : Q (p.run exec s).1 (p.run exec s).2 := by
  induction p generalizing s with
  | done a => exact h
  | call o k ih => exact ih _ (h _ _ (hexec o s)).2

end Safely

attribute [irreducible] Safely

end Program

end Host
