/-
Host functions see failures.

A helper of the machine may fail, and the host function that has asked for it decides
what to do then.  If it passes the failure on, as most do, it fails with the fault of
the helper itself.  If it goes on, it does so with the stack that it had: no helper that
fails has touched the stack, and only popping fails for want of words.

* `Helper.run_eq_error` — what a helper that fails leaves behind;
* `Native.run_call_orRaise` — passing a failure on;
* `Native.Balanced` — host functions that keep to the words of their parameters and
  results;
* `Native.Balanced.sizes_run` — what those do to the size of the stack.
-/
import WordScript.Proofs.StackSizes

namespace WordScript

/-! ### Failures -/

namespace Exec

variable {α β : Type} {m m' : Machine} {f : Fault}

/-- The effect leaves the stack alone, whether it succeeds or faults, and host functions know its
faults. -/
def Spares (x : Exec α) : Prop :=
  ∀ m : Machine, match x m with
    | .ok _ m' => m'.stack = m.stack
    | .error f m' => m'.stack = m.stack ∧ f.toHost.fault = f

theorem Spares.pure (a : α) : Spares (pure a : Exec α) :=
  fun _ => rfl

theorem Spares.bind {x : Exec α} {f : α → Exec β} (hx : Spares x) (hf : ∀ a, Spares (f a)) :
    Spares (x >>= f) := by
  intro m
  have h := hx m
  show match EStateM.bind x f m with
    | .ok _ m' => m'.stack = m.stack
    | .error f m' => m'.stack = m.stack ∧ f.toHost.fault = f
  rw [EStateM.bind]
  cases hxm : x m with
  | ok a m₁ =>
    rw [hxm] at h
    have hstack : m₁.stack = m.stack := h
    have h₁ := hf a m₁
    rw [hstack] at h₁
    exact h₁
  | error e m₁ =>
    rw [hxm] at h
    exact h

theorem Spares.error {x : Exec α} (h : Spares x) (hx : x m = .error f m') :
    m'.stack = m.stack ∧ f.toHost.fault = f := by
  have hm := h m
  rw [hx] at hm
  exact hm

theorem spares_heapIndex (address : Word) : Spares (lift (Address.heapIndex address)) := by
  intro m
  rw [Address.heapIndex]
  by_cases h : Address.isHeap address = true
  · rw [if_pos h]
    rfl
  · rw [if_neg h]
    exact ⟨rfl, rfl⟩

theorem spares_allocate (length : Nat) : Spares (allocate length) := by
  intro m
  rw [allocate]
  cases m.heap.placement (Heap.blockLength length) with
  | ok p => rfl
  | error e => exact ⟨rfl, rfl⟩

theorem spares_heapRead (index : Nat) : Spares (heapRead index) := by
  intro m
  rw [heapRead]
  cases m.heap.read index with
  | ok w => rfl
  | error e => exact ⟨rfl, rfl⟩

theorem spares_heapSlice (index length : Nat) : Spares (heapSlice index length) := by
  intro m
  rw [heapSlice]
  cases m.heap.slice index length with
  | ok ws => rfl
  | error e => exact ⟨rfl, rfl⟩

theorem spares_heapStore (index : Nat) (ws : List Word) : Spares (heapStore index ws) := by
  intro m
  rw [heapStore]
  by_cases h : m.heap.inBounds index ws.length = true
  · rw [if_pos h]
  · rw [if_neg h]
    exact ⟨rfl, rfl⟩

theorem spares_load (address : Word) : Spares (load address) := by
  intro m
  rw [load]
  by_cases h : Address.isHeap address = true
  · rw [if_pos h]
    exact spares_heapRead _ m
  · rw [if_neg h]
    cases m.stack[address.toNat]? with
    | some w => rfl
    | none => exact ⟨rfl, rfl⟩

theorem spares_readString (address : Word) : Spares (readString address) :=
  (spares_heapIndex address).bind fun _ => (spares_heapRead _).bind fun _ =>
    (spares_heapSlice _ _).bind fun _ => .pure _

theorem spares_allocString (text : String) : Spares (allocString text) :=
  (spares_allocate _).bind fun _ => (spares_heapStore _ _).bind fun _ => .pure _

theorem store_eq_error {address value : Word} (h : store address value m = .error f m') :
    m'.stack = m.stack ∧ f.toHost.fault = f := by
  rw [store] at h
  split at h
  · exact (spares_heapStore _ _).error h
  · split at h <;> cases h
    exact ⟨rfl, rfl⟩

theorem popWord_eq_error (h : popWord m = .error f m') :
    m.stack = #[] ∧ m' = m ∧ f = .stackUnderflow := by
  rw [popWord] at h
  split at h
  · cases h
  · next hback =>
    cases h
    exact ⟨Array.back?_eq_none_iff.mp hback, rfl, rfl⟩

end Exec

/-- A helper that fails has not touched the stack, and the host function knows its fault. -/
theorem Helper.run_eq_error {helper : Helper} {m m' : Machine} {f : Fault}
    (h : helper.run m = .error f m') : m'.stack = m.stack ∧ f.toHost.fault = f := by
  cases helper with
  | push w => cases h
  | pop =>
    obtain ⟨-, rfl, rfl⟩ := Exec.popWord_eq_error h
    exact ⟨rfl, rfl⟩
  | readWord address => exact (Exec.spares_load address).error h
  | writeWord address value => exact Exec.store_eq_error h
  | readString address => exact (Exec.spares_readString address).error h
  | allocString text => exact (Exec.spares_allocString text).error h
  | print line => cases h

/-- A host function that passes the failure of a helper on fails with the fault of the helper. -/
theorem Native.run_call_orRaise (helper : Helper) (next : helper.Answer → Native) :
    (Native.call helper (Native.orRaise next)).run =
      helper.run >>= fun answer => (next answer).run := by
  funext m
  show EStateM.bind (Exec.observe helper.run) _ m = EStateM.bind helper.run _ m
  rw [EStateM.bind, EStateM.bind, Exec.observe]
  cases hx : helper.run m with
  | ok answer m' => rfl
  | error f m' =>
    show EStateM.Result.error f.toHost.fault m' = .error f m'
    rw [(Helper.run_eq_error hx).2]

/-! ### The size of the stack -/

/-- On every way to its end, the host function takes `pops` words from the stack and leaves `pushes`
words there.  It may fail on the way, but does not report that the stack is empty. -/
def Native.Balanced : Native → (pops pushes : Nat) → Prop
  | .done, pops, pushes => pops = 0 ∧ pushes = 0
  | .raise fault, _, _ => fault ≠ .stackUnderflow
  | .call (.push _) next, pops, pushes =>
    ∃ rest, pushes = rest + 1 ∧ (next (.ok ())).Balanced pops rest
  | .call .pop next, pops, pushes =>
    ∃ rest, pops = rest + 1 ∧ ∀ w : Word, (next (.ok w)).Balanced rest pushes
  | .call _ next, pops, pushes =>
    ∀ answer, answer ≠ .error .stackUnderflow → (next answer).Balanced pops pushes

theorem Fault.toHost_ne_of_isTame {f : Fault} (h : f.isTame = true) :
    f.toHost ≠ .stackUnderflow := by
  cases f with
  | stackUnderflow => cases h
  | _ => simp [Fault.toHost]

namespace Exec

variable {α : Type} {m : Machine} {floor : Nat}

/-- What cannot fail is answered. -/
theorem Sizes.answers {x : Exec α} {Q : α → Nat → Prop} (h : x.Sizes m floor Q)
    (hok : ∀ f m', x m ≠ .error f m') :
    (observe x).Sizes m floor fun answer n => ∃ a, answer = .ok a ∧ Q a n := by
  rw [Sizes] at h
  cases hx : x m with
  | ok a m' =>
    rw [hx] at h
    exact sizes_of_ok (by rw [observe, hx]) h.1 ⟨a, rfl, h.2⟩
  | error f m' => exact absurd hx (hok f m')

/-- A helper that works on memory answers, or fails for another reason than an empty stack. -/
theorem Steady.observe {helper : Helper} (h : Steady helper.run) :
    (observe helper.run).Sizes m floor fun answer n =>
      n = m.stack.size ∧ answer ≠ .error .stackUnderflow := by
  have hm := h m 0 (Nat.zero_le _)
  rw [Sizes] at hm
  cases hx : helper.run m with
  | ok a m' =>
    rw [hx] at hm
    have hobserve : Exec.observe helper.run m = .ok (.ok a) m' := by rw [Exec.observe, hx]
    refine sizes_of_ok hobserve hm.1 ⟨hm.2, fun hanswer => ?_⟩
    cases hanswer
  | error f m' =>
    rw [hx] at hm
    have hobserve : Exec.observe helper.run m = .ok (.error f.toHost) m' := by
      rw [Exec.observe, hx]
    have hstack : m'.stack = m.stack := (Helper.run_eq_error hx).1
    refine sizes_of_ok hobserve hm.1 ⟨congrArg Array.size hstack, fun hanswer => ?_⟩
    exact Fault.toHost_ne_of_isTame hm.2.1 (Except.error.inj hanswer)

end Exec

/-- A balanced host function stays above the floor as long as its arguments lie above it. -/
theorem Native.Balanced.sizes_run {f : Native} {pops pushes floor : Nat} {m : Machine}
    (hf : f.Balanced pops pushes) (hstack : floor + pops ≤ m.stack.size) :
    f.run.Sizes m floor fun _ n => n + pops = m.stack.size + pushes := by
  induction f generalizing pops pushes m with
  | done =>
    obtain ⟨rfl, rfl⟩ := hf
    exact Exec.sizes_pure rfl
  | raise fault =>
    refine Exec.sizes_throw ?_ (by omega)
    cases fault with
    | stackUnderflow => exact absurd rfl hf
    | _ => rfl
  | call helper next ih =>
    -- all helpers but two leave the stack at its size, and what comes next is balanced as before
    have hsteady : Exec.Steady helper.run →
        (∀ answer, answer ≠ .error .stackUnderflow → (next answer).Balanced pops pushes) →
          (Native.call helper next).run.Sizes m floor fun _ n =>
            n + pops = m.stack.size + pushes := by
      intro hsteady hnext
      refine hsteady.observe.bind fun answer m₁ _ h₁ => ?_
      obtain ⟨hsize, hanswer⟩ := h₁
      rw [← hsize]
      exact ih answer (hnext answer hanswer) (by omega)
    cases helper with
    | push w =>
      obtain ⟨rest, rfl, hnext⟩ := hf
      refine ((Exec.sizes_pushWord w).answers nofun).bind fun answer m₁ _ h₁ => ?_
      obtain ⟨-, rfl, hsize⟩ := h₁
      refine (ih _ hnext (by omega)).mono fun _ n hn => ?_
      omega
    | pop =>
      obtain ⟨rest, rfl, hnext⟩ := hf
      have hpos : 0 < m.stack.size := by omega
      have hpops : ∀ f m', Exec.popWord m ≠ .error f m' := by
        intro f m' hpop
        rw [(Exec.popWord_eq_error hpop).1] at hpos
        exact absurd hpos (Nat.lt_irrefl 0)
      refine ((Exec.sizes_popWord hpos).answers hpops).bind fun answer m₁ _ h₁ => ?_
      obtain ⟨w, rfl, hsize⟩ := h₁
      refine (ih _ (hnext w) (by omega)).mono fun _ n hn => ?_
      omega
    | readWord address => exact hsteady (Exec.steady_load address) hf
    | writeWord address value => exact hsteady (Exec.steady_store address value) hf
    | readString address => exact hsteady (Exec.steady_readString address) hf
    | allocString text => exact hsteady (Exec.steady_allocString text) hf
    | print line => exact hsteady (Exec.steady_print line) hf

end WordScript
