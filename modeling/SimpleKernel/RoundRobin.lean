import SimpleKernel.RunQueue

/-!
# Round robin

`schedule` moves `current` round the ring of tasks while `kernel_thread` appends to it, so a run is
a walk round a growing ring.  Between two turns of one task every older task gets one turn, and
every younger one at most one.
-/

namespace SimpleKernel

open ByteStore ProgramLogic

section Turns

variable {s t : Sched} {l l' visits : List Word} {c : ℕ}

/-- The tasks that become current are those that a walk round the queue meets. -/
theorem Run.walk (run : Run s l visits t l') (queue : RunQueue s l) (hc : l[c]? = some s.current) :
    ∃ c', Ring.Walk l c visits l' c' ∧ l'[c']? = some t.current := by
  induction run with
  | start => exact ⟨c, .start, hc⟩
  | @step visits visit l₁ l₂ t u before step ih =>
    obtain ⟨c', walk, hc'⟩ := ih
    have queue' := before.runQueue queue
    obtain ⟨-, ⟨rfl, current, rfl | ⟨p, rfl⟩⟩ | ⟨rfl, rfl, current⟩⟩ := step.queue queue'
    · rw [List.append_nil, current]
      exact ⟨c', walk, hc'⟩
    · rw [List.append_nil, current]
      exact ⟨c', walk.arrive p, by rw [List.getElem?_append_left (Ring.index_lt hc'), hc']⟩
    · have next : l₂[(c' + 1) % l₂.length]? = some u.current := by
        rw [current]
        exact queue'.ring c' _ hc'
      exact ⟨_, walk.turn next, next⟩

/-- Any number of calls of `schedule` come back. -/
theorem RunQueue.exists_turns (queue : RunQueue s l) (k : ℕ) :
    ∃ visits t, Run s l visits t l ∧ visits.length = k := by
  induction k with
  | zero => exact ⟨[], s, .start, rfl⟩
  | succ k ih =>
    obtain ⟨visits, t, run, length⟩ := ih
    obtain ⟨_, u, switch, -⟩ := ((run.runQueue queue).schedule (E := fun _ _ => False)
      ⟨0, 0, 0, 0, 0, 0⟩ (Q := fun _ _ => True) fun _ _ _ _ => trivial).returns
    exact ⟨visits ++ [u.current], u, run.step (.schedule switch), by
      rw [List.length_append, length, List.length_singleton]⟩

end Turns

/-- Up to the next turn of the current task every other task of the queue gets one turn, and every
task created meanwhile at most one.  Without creations as many turns as there are tasks give one to
each and end where they began. -/
theorem schedule_roundRobin (im : Image) (linked : StackLinked im) (s : Sched) (l : List Word)
    (reached : Reached im s l) :
    (∀ visits t l', Run s l (visits ++ [s.current]) t l' → s.current ∉ visits →
      (∀ a ∈ l, a ≠ s.current → visits.count a = 1) ∧
        ∀ a ∈ l', a ∉ l → visits.count a ≤ 1) ∧
    (∀ visits t, Run s l visits t l → visits.length = l.length →
      (∀ a ∈ l, visits.count a = 1) ∧ t.current = s.current) ∧
    ∃ visits t, Run s l visits t l ∧ visits.length = l.length := by
  have queue := reached.runQueue linked
  obtain ⟨c, hc⟩ := List.mem_iff_getElem?.1 queue.current
  refine ⟨fun visits t l' run away => ?_, fun visits t run round => ?_, queue.exists_turns _⟩
  · obtain ⟨c', walk, -⟩ := run.walk queue hc
    have nodup := (run.runQueue queue).placed.nodup
    obtain ⟨once, atMost⟩ := walk.count_of_return hc nodup away
    exact ⟨once, fun a _ _ => atMost a⟩
  · obtain ⟨c', walk, hc'⟩ := run.walk queue hc
    obtain ⟨rfl, rfl⟩ := walk.visits_of_round (Ring.index_lt hc) round
    refine ⟨fun a ha => ?_, Option.some_inj.1 (hc'.symm.trans hc)⟩
    rw [(List.rotate_perm l _).count_eq]
    exact List.count_eq_one_of_mem queue.placed.nodup ha

theorem schedule_roundRobin_two : ∃ s visits t,
    Run s [0xC0130000, 0xE000000C] visits t [0xC0130000, 0xE000000C] ∧
      visits.count 0xC0130000 = 1 ∧ visits.count 0xE000000C = 1 ∧ t.current = s.current := by
  obtain ⟨s, reached⟩ := exists_twoTasks
  obtain ⟨-, round, visits, t, run, length⟩ :=
    schedule_roundRobin smallImage stackLinked_smallImage s _ reached
  obtain ⟨once, back⟩ := round visits t run length
  exact ⟨s, visits, t, run, once _ (by decide), once _ (by decide), back⟩

end SimpleKernel
