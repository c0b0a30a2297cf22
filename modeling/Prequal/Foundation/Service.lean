import Prequal.Foundation.Registry
import Prequal.Foundation.Transition

/-!
# Services that answer each request once

A service gives every request to one server, which may serve or drop it, and
ends it with one verdict.  The verdict is that of the caller: it may give up at
any time after the assignment, but it succeeds only with what was served.
-/

namespace Prequal.Foundation.Service

open Relation

variable {ρ β : Type*}

inductive Stage (ρ : Type*) where
  | submitted
  | abandoned
  | assigned (server : ρ)
  | serving (server : ρ)
  | served (server : ρ)
  | dropped (server : ρ)
  deriving DecidableEq, Repr

inductive Verdict (β : Type*) where
  | pending
  | succeeded (answer : β)
  | failed
  deriving DecidableEq, Repr

structure Request (ρ β : Type*) where
  stage : Stage ρ
  verdict : Verdict β
  deriving DecidableEq, Repr

def Stage.server : Stage ρ → Option ρ
  | .submitted | .abandoned => none
  | .assigned r | .serving r | .served r | .dropped r => some r

inductive Next (valid : ρ → Prop) : Request ρ β → Request ρ β → Prop where
  | assign (r : ρ) (hr : valid r) :
      Next valid ⟨.submitted, .pending⟩ ⟨.assigned r, .pending⟩
  | abandon : Next valid ⟨.submitted, .pending⟩ ⟨.abandoned, .pending⟩
  | accept (r : ρ) (v : Verdict β) :
      Next valid ⟨.assigned r, v⟩ ⟨.serving r, v⟩
  | serve (r : ρ) (v : Verdict β) : Next valid ⟨.serving r, v⟩ ⟨.served r, v⟩
  | drop (r : ρ) (v : Verdict β) : Next valid ⟨.serving r, v⟩ ⟨.dropped r, v⟩
  | succeed (r : ρ) (answer : β) :
      Next valid ⟨.served r, .pending⟩ ⟨.served r, .succeeded answer⟩
  | fail (stage : Stage ρ) (hassigned : stage.server.isSome) :
      Next valid ⟨stage, .pending⟩ ⟨stage, .failed⟩

inductive Step (valid : ρ → Prop) :
    List (Request ρ β) → List (Request ρ β) → Prop where
  | submit (requests : List (Request ρ β)) :
      Step valid requests (requests ++ [⟨.submitted, .pending⟩])
  | progress (requests : List (Request ρ β)) (q : Nat) (x y : Request ρ β)
      (hget : requests[q]? = some x) (hnext : Next valid x y) :
      Step valid requests (requests.set q y)

theorem step_of_set {valid : ρ → Prop} {requests : List (Request ρ β)}
    {q : Nat} {x y : Request ρ β} (hget : requests[q]? = some x)
    (h : y = x ∨ Next valid x y) :
    requests.set q y = requests ∨
      Step valid requests (requests.set q y) := by
  rcases h with rfl | hnext
  · exact .inl (set_self hget)
  · exact .inr (.progress requests q x y hget hnext)

section Next

variable {valid : ρ → Prop} {x y : Request ρ β}

theorem Next.server (h : Next valid x y) {r : ρ}
    (hr : x.stage.server = some r) : y.stage.server = some r := by
  cases h <;> first | exact hr | cases hr

theorem Next.verdict (h : Next valid x y) (hv : x.verdict ≠ .pending) :
    y.verdict = x.verdict := by
  cases h <;> first | rfl | exact absurd rfl hv

theorem Next.served (h : Next valid x y) {r : ρ}
    (hr : x.stage = .served r) : y.stage = .served r := by
  cases h <;> first | exact hr | cases hr

/-- What the verdict of a request tells about its stage. -/
structure Request.Sound (valid : ρ → Prop) (x : Request ρ β) : Prop where
  valid : ∀ r, x.stage.server = some r → valid r
  assigned : x.verdict ≠ .pending → x.stage.server.isSome
  served : ∀ answer, x.verdict = .succeeded answer → ∃ r, x.stage = .served r

theorem Next.sound (h : Next valid x y) (hx : x.Sound valid) :
    y.Sound valid := by
  obtain ⟨hvalid, hassigned, hserved⟩ := hx
  cases h with
  | assign r hr =>
      exact ⟨fun r' hr' => Option.some.inj hr' ▸ hr, fun _ => rfl, nofun⟩
  | abandon => exact ⟨nofun, hassigned, nofun⟩
  | accept r v =>
      refine ⟨hvalid, fun _ => rfl, fun answer hv => ?_⟩
      obtain ⟨r', hr'⟩ := hserved answer hv
      cases hr'
  | serve r v => exact ⟨hvalid, fun _ => rfl, fun _ _ => ⟨r, rfl⟩⟩
  | drop r v =>
      refine ⟨hvalid, fun _ => rfl, fun answer hv => ?_⟩
      obtain ⟨r', hr'⟩ := hserved answer hv
      cases hr'
  | succeed r answer => exact ⟨hvalid, fun _ => rfl, fun _ _ => ⟨r, rfl⟩⟩
  | fail stage hsome => exact ⟨hvalid, fun _ => hsome, nofun⟩

end Next

section Runs

variable {valid : ρ → Prop} {requests requests' : List (Request ρ β)}

theorem follows (h : ReflTransGen (Step valid) requests requests') {q : Nat}
    {x : Request ρ β} (hget : requests[q]? = some x) :
    ∃ y, requests'[q]? = some y ∧ ReflTransGen (Next valid) x y := by
  induction h with
  | refl => exact ⟨x, hget, .refl⟩
  | tail _ hstep ih =>
      obtain ⟨y, hy, hcourse⟩ := ih
      cases hstep with
      | submit =>
          refine ⟨y, ?_, hcourse⟩
          rw [List.getElem?_append_left (List.getElem?_eq_some_iff.mp hy).1]
          exact hy
      | progress q' x' y' hget' hnext =>
          rw [getElem?_set_of_some hget']
          split
          · rename_i heq
            subst heq
            rw [hget', Option.some.injEq] at hy
            subst hy
            exact ⟨y', rfl, hcourse.tail hnext⟩
          · exact ⟨y, hy, hcourse⟩

theorem sound (h : ReflTransGen (Step valid) [] requests) :
    ∀ x ∈ requests, x.Sound valid := by
  refine invariant_of_step (I := fun requests : List (Request ρ β) =>
    ∀ x ∈ requests, x.Sound valid) ?_ (by simp) h
  intro before after hold hstep
  cases hstep with
  | submit =>
      intro x hx
      rcases List.mem_append.mp hx with hmem | hnew
      · exact hold x hmem
      · rw [List.mem_singleton.mp hnew]
        exact ⟨nofun, fun hv => absurd rfl hv, nofun⟩
  | progress q x y hget hnext =>
      exact forall_mem_set hold
        (hnext.sound (hold x (List.mem_of_getElem? hget)))

theorem final {x y : Request ρ β} (h : ReflTransGen (Next valid) x y) :
    (∀ r, x.stage.server = some r → y.stage.server = some r) ∧
      (x.verdict ≠ .pending → y.verdict = x.verdict) ∧
      ∀ r, x.stage = .served r → y.stage = .served r := by
  induction h with
  | refl => exact ⟨fun _ => id, fun _ => rfl, fun _ => id⟩
  | tail _ hnext ih =>
      obtain ⟨hserver, hverdict, hserved⟩ := ih
      refine ⟨fun r hr => hnext.server (hserver r hr), fun hv => ?_,
        fun r hr => hnext.served (hserved r hr)⟩
      rw [hnext.verdict (by rwa [hverdict hv]), hverdict hv]

end Runs

end Prequal.Foundation.Service
