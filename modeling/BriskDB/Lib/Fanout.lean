import BriskDB.Lib.Result

/-! # Queues that are served in any order

Several queues are visited one item at a time, in the order of a schedule, and each visit
may end its queue. A schedule that is too short is completed queue by queue, so every
schedule serves every queue to its end.
-/

namespace Fanout

open Result List

universe u v

variable {α σ : Type u} {ε : Type v} (visit : σ → α → Except ε (σ × Bool))

/-- Serve the next item of one queue. -/
def advance (served : List (List α) × σ) (index : Nat) : Except ε (List (List α) × σ) :=
  match served.1[index]? with
  | some (item :: rest) => do
    let (state, more) ← visit served.2 item
    return (served.1.set index (if more then rest else []), state)
  | _ => return served

/-- As many turns for every queue as it has items; the first queue has the given index. -/
def completing : Nat → List (List α) → List Nat
  | _, [] => []
  | index, queue :: queues => List.replicate queue.length index ++ completing (index + 1) queues

def run (schedule : List Nat) (queues : List (List α)) (state : σ) : Except ε σ := do
  let served ← (schedule ++ completing 0 queues).foldlM (advance visit) (queues, state)
  return served.2

theorem length_le_count_completing {queues : List (List α)} {index offset : Nat}
    {queue : List α} (h : queues[index]? = some queue) :
    queue.length ≤ (completing offset queues).count (offset + index) := by
  induction queues generalizing index offset with
  | nil => simp at h
  | cons first queues ih =>
    rw [completing, count_append]
    cases index with
    | zero =>
      grind
    | succ index =>
      grind

variable {visit} {index : Nat} {queues : List (List α)}

theorem advance_cases {served next : List (List α) × σ}
    (h : advance visit served index = .ok next) :
    next = served ∧ (∀ item rest, served.1[index]? ≠ some (item :: rest)) ∨
      ∃ item rest more, served.1[index]? = some (item :: rest) ∧
        visit served.2 item = .ok (next.2, more) ∧
        next.1 = served.1.set index (if more then rest else []) := by
  unfold advance at h
  split at h
  next item rest hqueue =>
    obtain ⟨⟨state, more⟩, hvisit, h⟩ := bind_eq_ok.mp h
    cases h
    exact .inr ⟨item, rest, more, hqueue, hvisit, rfl⟩
  next hnone =>
    cases h
    exact .inl ⟨rfl, hnone⟩

theorem flatten_set_perm {queue : List α} (h : queues[index]? = some queue) :
    ∃ others : List α, queues.flatten.Perm (queue ++ others) ∧
      ∀ queue', (queues.set index queue').flatten.Perm (queue' ++ others) := by
  induction queues generalizing index with
  | nil => simp at h
  | cons first queues ih =>
    cases index with
    | zero =>
      simp only [getElem?_cons_zero, Option.some.injEq] at h
      subst h
      exact ⟨queues.flatten, .refl _, fun queue' => .refl _⟩
    | succ index =>
      obtain ⟨others, hall, hset⟩ := ih (by simpa using h)
      refine ⟨first ++ others, ?_, ?_⟩
      · rw [flatten_cons]
        exact (hall.append_left first).trans (perm_append_comm_assoc first queue others)
      · intro queue'
        rw [set_cons_succ, flatten_cons]
        exact ((hset queue').append_left first).trans
          (perm_append_comm_assoc first queue' others)

/-- What every visit preserves holds when all queues were served, and they are empty. -/
theorem run_induct {I : List (List α) → σ → Prop}
    (hstep : ∀ queues state index item rest next more, queues[index]? = some (item :: rest) →
      I queues state → visit state item = .ok (next, more) →
      I (queues.set index (if more then rest else [])) next)
    {schedule : List Nat} {state result : σ} (hinit : I queues state)
    (hrun : run visit schedule queues state = .ok result) :
    ∃ served, I served result ∧ served.length = queues.length ∧ ∀ queue ∈ served, queue = [] := by
  obtain ⟨served, hserved, hrun⟩ := bind_eq_ok.mp hrun
  cases hrun
  -- every queue has at most as many items as turns are left for it
  have hturns : ∀ index queue, queues[index]? = some queue →
      queue.length ≤ (schedule ++ completing 0 queues).count index := by
    intro index queue hqueue
    have hcount := @length_le_count_completing _ queues index 0 queue hqueue
    rw [Nat.zero_add] at hcount
    rw [count_append]
    omega
  generalize schedule ++ completing 0 queues = turns at hserved hturns
  clear hrun
  induction turns generalizing queues state with
  | nil =>
    cases hserved
    refine ⟨queues, hinit, rfl, ?_⟩
    intro queue hqueue
    obtain ⟨index, hindex⟩ := getElem?_of_mem hqueue
    exact eq_nil_of_length_eq_zero (Nat.le_zero.mp (hturns index queue hindex))
  | cons turn turns ih =>
    rw [foldlM_cons] at hserved
    obtain ⟨⟨middle, state'⟩, hmiddle, hserved⟩ := bind_eq_ok.mp hserved
    rcases advance_cases hmiddle with ⟨heq, hnone⟩ | ⟨item, rest, more, hqueue, hvisit, hset⟩
    · cases heq
      refine ih hinit hserved ?_
      intro index queue hindex
      have hle := hturns index queue hindex
      rw [count_cons] at hle
      split at hle
      next heq =>
        obtain rfl : turn = index := by simpa using heq
        cases queue with
        | nil => exact Nat.zero_le _
        | cons item rest => exact absurd hindex (hnone item rest)
      next => exact hle
    · dsimp only at hset
      subst hset
      obtain ⟨final, hfinal, hlength, hempty⟩ :=
        ih (hstep queues state turn item rest state' more hqueue hinit hvisit) hserved (by
          intro index queue hindex
          rw [getElem?_set] at hindex
          split at hindex
          next heq =>
            subst heq
            split at hindex
            next hlt =>
              cases hindex
              have hle := hturns turn _ hqueue
              rw [count_cons_self, length_cons] at hle
              cases more with
              | true => exact Nat.le_of_succ_le_succ hle
              | false => exact Nat.zero_le _
            next => cases hindex
          next hne =>
            grind)
      exact ⟨final, hfinal, by rw [hlength, length_set], hempty⟩

end Fanout
