import Dataflow.Data.Search
import Mathlib.Data.List.Nodup
import Mathlib.Data.List.Perm.Subperm
import Mathlib.Logic.Relation

/-!
Breadth-first search finds everything: what is visited is closed under successors within the domain. The budget
is enough because an element is visited once, so that when it is used up the whole domain has been visited. Where
successors stay in the domain, what is found is what can be reached (`mem_reach_iff`), and neither budget nor domain
show in it: the search without them comes to an end with the same visits (`visits_reach`). The depth-first search for
one element ends too (`exists_seeks`), and tells whether that element can be reached (`Seeks.answer_iff`).
-/

namespace Dataflow

namespace Search
variable {α : Type} {next : α → List α} {domain : List α}

abbrev Reaches (next : α → List α) : α → α → Prop := Relation.ReflTransGen fun a b => b ∈ next a

/-- The search without budget and domain: what it visits from now on, with a queue and what is visited already. -/
inductive Visits (next : α → List α) : List α → List α → List α → Prop where
  | done {visited : List α} : Visits next [] visited []
  | again {a : α} {queue visited later : List α} :
      a ∈ visited → Visits next queue visited later → Visits next (a :: queue) visited later
  | visit {a : α} {queue visited later : List α} :
      a ∉ visited → Visits next (queue ++ next a) (visited ++ [a]) later → Visits next (a :: queue) visited (a :: later)

theorem Visits.skip {passed queue visited later : List α} (known : ∀ a ∈ passed, a ∈ visited)
    (visits : Visits next queue visited later) : Visits next (passed ++ queue) visited later := by
  induction passed with
  | nil => exact visits
  | cons head tail ih =>
      obtain ⟨first, others⟩ := List.forall_mem_cons.mp known
      exact .again first (ih others)

theorem Visits.stop {queue visited : List α} (known : ∀ a ∈ queue, a ∈ visited) : Visits next queue visited [] := by
  simpa using skip known .done

theorem mem_of_full {visited : List α} (distinct : visited.Nodup) (inside : ∀ a ∈ visited, a ∈ domain)
    (full : domain.length ≤ visited.length) {a : α} (member : a ∈ domain) : a ∈ visited :=
  ((List.subperm_of_subset distinct inside).perm_of_length_le full).mem_iff.mpr member

/-! ## Depth first -/

/-- The search for one element with a stack, without budget and domain, and its answer. What was pushed last comes up
first, and the search stops when the element comes up. -/
inductive Seeks (next : α → List α) (goal : α) : List α → List α → Bool → Prop where
  | missed {seen : List α} : Seeks next goal [] seen false
  | found {stack seen : List α} : Seeks next goal (goal :: stack) seen true
  | again {a : α} {stack seen : List α} {answer : Bool} :
      a ≠ goal → a ∈ seen → Seeks next goal stack seen answer → Seeks next goal (a :: stack) seen answer
  | visit {a : α} {stack seen : List α} {answer : Bool} :
      a ≠ goal → a ∉ seen → Seeks next goal ((next a).reverse ++ stack) (seen ++ [a]) answer →
      Seeks next goal (a :: stack) seen answer

section Seeks
variable {goal : α} {stack seen : List α} {answer : Bool}

theorem exists_seeks (closed : ∀ a ∈ domain, ∀ b ∈ next a, b ∈ domain) (goal : α) (distinct : seen.Nodup)
    (inside : ∀ a ∈ seen ++ stack, a ∈ domain) : ∃ answer, Seeks next goal stack seen answer := by
  obtain ⟨left, room⟩ : ∃ left, domain.length - seen.length = left := ⟨_, rfl⟩
  induction left using Nat.strongRecOn generalizing stack seen with
  | ind left fewer =>
      induction stack with
      | nil => exact ⟨false, .missed⟩
      | cons a stack ih =>
          by_cases here : a = goal
          · exact ⟨true, here ▸ .found⟩
          · by_cases known : a ∈ seen
            · obtain ⟨answer, seeks⟩ := ih fun b member => inside b (by
                simp only [List.mem_append, List.mem_cons] at member ⊢
                tauto)
              exact ⟨answer, .again here known seeks⟩
            · have belongs : a ∈ domain := inside a (by simp)
              have within (b : α) (member : b ∈ seen) : b ∈ domain := inside b (List.mem_append_left _ member)
              have less : seen.length < domain.length :=
                Nat.lt_of_not_le fun full => known (mem_of_full distinct within full belongs)
              have distinct' : (seen ++ [a]).Nodup := by simpa using distinct.concat known
              have inside' (b : α) (member : b ∈ seen ++ [a] ++ ((next a).reverse ++ stack)) : b ∈ domain := by
                simp only [List.mem_append, List.mem_singleton, List.mem_reverse] at member
                rcases member with (before | rfl) | after | later
                · exact within b before
                · exact belongs
                · exact closed a belongs b after
                · exact inside b (by simp [later])
              obtain ⟨answer, seeks⟩ := fewer _ (by
                rw [← room, List.length_append, List.length_singleton]
                omega) distinct' inside' rfl
              exact ⟨answer, .visit here known seeks⟩

theorem reaches_of_seen {a : α} (ahead : ∀ a ∈ seen, ∀ b ∈ next a, b ∈ seen ∨ b ∈ stack) (new : goal ∉ seen)
    (known : a ∈ seen) (reaches : Reaches next a goal) : ∃ s ∈ stack, Reaches next s goal := by
  induction reaches using Relation.ReflTransGen.head_induction_on with
  | refl => exact absurd known new
  | head step rest ih =>
      rcases ahead _ known _ step with before | pushed
      · exact ih before
      · exact ⟨_, pushed, rest⟩

theorem Seeks.answer_iff (seeks : Seeks next goal stack seen answer) (new : goal ∉ seen)
    (ahead : ∀ a ∈ seen, ∀ b ∈ next a, b ∈ seen ∨ b ∈ stack) :
    answer = true ↔ ∃ s ∈ stack, Reaches next s goal := by
  induction seeks with
  | missed => simp
  | found => simpa using .inl .refl
  | @again a stack seen answer other known _ ih =>
      have ahead' (b : α) (member : b ∈ seen) (c : α) (step : c ∈ next b) : c ∈ seen ∨ c ∈ stack := by
        rcases ahead b member c step with before | pushed
        · exact .inl before
        · rcases List.mem_cons.mp pushed with rfl | later
          · exact .inl known
          · exact .inr later
      rw [ih new ahead', List.exists_mem_cons_iff]
      exact ⟨.inr, Or.rec (reaches_of_seen ahead' new known) id⟩
  | @visit a stack seen answer other fresh _ ih =>
      have new' : goal ∉ seen ++ [a] := by simpa [new] using Ne.symm other
      have through : Reaches next a goal ↔ ∃ b ∈ next a, Reaches next b goal := by
        rw [Reaches, Relation.ReflTransGen.cases_head_iff, or_iff_right other]
      rw [ih new' ?_, List.exists_mem_cons_iff, through]
      · simp only [List.mem_append, List.mem_reverse, or_and_right, exists_or]
      · intro b member c step
        simp only [List.mem_append, List.mem_singleton, List.mem_reverse] at member ⊢
        rcases member with before | rfl
        · rcases ahead b before c step with known | pushed
          · exact .inl (.inl known)
          · rcases List.mem_cons.mp pushed with rfl | later
            · exact .inl (.inr rfl)
            · exact .inr (.inr later)
        · exact .inr (.inl step)

end Seeks

/-! ## Breadth first -/

variable [DecidableEq α]

theorem mem_fresh {visited queue : List α} {a : α} (queued : a ∈ queue) (inside : a ∈ domain) :
    a ∈ visited ∨ a ∈ fresh domain visited queue := by
  unfold fresh
  rw [← List.takeWhile_append_dropWhile (p := fun a => a ∈ visited || a ∉ domain) (l := queue)] at queued
  rcases List.mem_append.mp queued with passed | kept
  · have skipped := List.all_eq_true.mp List.all_takeWhile a passed
    simp only [inside, not_true_eq_false, decide_false, Bool.or_false, decide_eq_true_eq] at skipped
    exact .inl skipped
  · exact .inr kept

theorem explore_complete {budget : Nat} {queue visited : List α} (distinct : visited.Nodup)
    (inside : ∀ a ∈ visited, a ∈ domain) (enough : domain.length ≤ budget + visited.length)
    (ahead : ∀ a ∈ visited, ∀ b ∈ next a, b ∈ domain → b ∈ visited ∨ b ∈ queue) :
    (∀ a ∈ domain, a ∈ visited ∨ a ∈ queue → a ∈ explore next domain budget queue visited) ∧
      ∀ a ∈ explore next domain budget queue visited, ∀ b ∈ next a, b ∈ domain →
        b ∈ explore next domain budget queue visited := by
  induction budget generalizing queue visited with
  | zero =>
      -- the budget is used up, so that nothing of the domain is left to visit
      have full {a : α} (member : a ∈ domain) : a ∈ visited := mem_of_full distinct inside (by omega) member
      exact ⟨fun a member _ => full member, fun a _ b _ member => full member⟩
  | succ budget ih =>
      unfold explore
      cases front : fresh domain visited queue with
      | nil =>
          have nothing {a : α} (member : a ∈ domain) (known : a ∈ visited ∨ a ∈ queue) : a ∈ visited := by
            rcases known with before | queued
            · exact before
            · have kept : a ∈ visited ∨ a ∈ fresh domain visited queue := mem_fresh queued member
              simpa [front] using kept
          exact ⟨fun a member known => nothing member known,
            fun a found b after member => nothing member (ahead a found b after member)⟩
      | cons head rest =>
          obtain ⟨new, belongs⟩ := head_fresh front
          have moved {a : α} (member : a ∈ domain) (known : a ∈ visited ∨ a ∈ queue) :
              a ∈ visited ++ [head] ∨ a ∈ rest ++ next head := by
            rcases known with before | queued
            · simp [before]
            · have kept : a ∈ visited ∨ a ∈ fresh domain visited queue := mem_fresh queued member
              rw [front, List.mem_cons] at kept
              rcases kept with before | rfl | later <;> simp [*]
          have distinct' : (visited ++ [head]).Nodup := by simpa using distinct.concat new
          have inside' (a : α) (member : a ∈ visited ++ [head]) : a ∈ domain := by
            rcases List.mem_append.mp member with before | last
            · exact inside a before
            · exact List.mem_singleton.mp last ▸ belongs
          have enough' : domain.length ≤ budget + (visited ++ [head]).length := by
            simp only [List.length_append, List.length_singleton]
            omega
          obtain ⟨finds, closed⟩ := ih distinct' inside' enough' fun a member b after there => by
            rcases List.mem_append.mp member with before | last
            · exact moved there (ahead a before b after there)
            · rw [List.mem_singleton.mp last] at after
              exact .inr (List.mem_append_right _ after)
          exact ⟨fun a member known => finds a member (moved member known), closed⟩

theorem start_mem_reach {starts : List α} {a : α} (start : a ∈ starts) (inside : a ∈ domain) :
    a ∈ reach next domain starts :=
  (explore_complete List.nodup_nil (by simp) (by simp) (by simp)).1 a inside (.inr start)

theorem mem_reach_of_next {starts : List α} {a b : α} (reached : a ∈ reach next domain starts)
    (after : b ∈ next a) (inside : b ∈ domain) : b ∈ reach next domain starts :=
  (explore_complete List.nodup_nil (by simp) (by simp) (by simp)).2 a reached b after inside

theorem reaches_of_mem_explore {starts : List α} {budget : Nat} {queue visited : List α}
    (origin : ∀ a, a ∈ visited ∨ a ∈ queue → ∃ s ∈ starts, Reaches next s a) :
    ∀ a ∈ explore next domain budget queue visited, ∃ s ∈ starts, Reaches next s a := by
  induction budget generalizing queue visited with
  | zero => exact fun a member => origin a (.inl member)
  | succ budget ih =>
      unfold explore
      cases front : fresh domain visited queue with
      | nil => exact fun a member => origin a (.inl member)
      | cons head rest =>
          have queued {a : α} (member : a ∈ head :: rest) : a ∈ queue := by
            rw [← front] at member
            exact (List.dropWhile_sublist _).mem member
          refine ih fun a known => ?_
          rcases known with known | known <;> rcases List.mem_append.mp known with before | now
          · exact origin a (.inl before)
          · rw [List.mem_singleton.mp now]
            exact origin head (.inr (queued List.mem_cons_self))
          · exact origin a (.inr (queued (List.mem_cons_of_mem _ before)))
          · obtain ⟨s, start, reaches⟩ := origin head (.inr (queued List.mem_cons_self))
            exact ⟨s, start, reaches.tail now⟩

theorem reaches_of_mem_reach {starts : List α} {a : α} (found : a ∈ reach next domain starts) :
    ∃ s ∈ starts, Reaches next s a :=
  reaches_of_mem_explore (fun b known => ⟨b, by simpa using known, .refl⟩) a found

theorem mem_reach_iff {starts : List α} (closed : ∀ a ∈ domain, ∀ b ∈ next a, b ∈ domain)
    (inside : ∀ a ∈ starts, a ∈ domain) {a : α} :
    a ∈ reach next domain starts ↔ ∃ s ∈ starts, Reaches next s a := by
  constructor
  · exact reaches_of_mem_reach
  · rintro ⟨s, start, reaches⟩
    induction reaches with
    | refl => exact start_mem_reach start (inside s start)
    | tail _ after ih => exact mem_reach_of_next ih after (closed _ (mem_domain_of_mem_reach ih) _ after)

theorem explore_visits (closed : ∀ a ∈ domain, ∀ b ∈ next a, b ∈ domain) {budget : Nat} {queue visited : List α}
    (distinct : visited.Nodup) (inside : ∀ a ∈ visited ++ queue, a ∈ domain)
    (enough : domain.length ≤ budget + visited.length) :
    ∃ later, explore next domain budget queue visited = visited ++ later ∧ Visits next queue visited later := by
  induction budget generalizing queue visited with
  | zero =>
      refine ⟨[], by simp [explore], .stop fun a queued => ?_⟩
      have within (a : α) (member : a ∈ visited) : a ∈ domain := inside a (List.mem_append_left _ member)
      exact mem_of_full distinct within (by omega) (inside a (List.mem_append_right _ queued))
  | succ budget ih =>
      unfold explore
      cases front : fresh domain visited queue with
      | nil =>
          refine ⟨[], by simp, .stop fun a queued => ?_⟩
          have kept : a ∈ visited ∨ a ∈ fresh domain visited queue :=
            mem_fresh queued (inside a (List.mem_append_right _ queued))
          simpa [front] using kept
      | cons head rest =>
          obtain ⟨new, belongs⟩ := head_fresh front
          -- what stands before the head in the queue is visited already
          obtain ⟨passed, rfl, known⟩ : ∃ passed, queue = passed ++ head :: rest ∧ ∀ a ∈ passed, a ∈ visited := by
            refine ⟨queue.takeWhile fun a => a ∈ visited || a ∉ domain, ?_, fun a member => ?_⟩
            · rw [← front, fresh, List.takeWhile_append_dropWhile]
            · have skipped := List.all_eq_true.mp List.all_takeWhile a member
              have there : a ∈ domain :=
                inside a (List.mem_append_right _ ((List.takeWhile_sublist _).mem member))
              simpa [there] using skipped
          have distinct' : (visited ++ [head]).Nodup := by simpa using distinct.concat new
          have inside' (a : α) (member : a ∈ visited ++ [head] ++ (rest ++ next head)) : a ∈ domain := by
            simp only [List.mem_append, List.mem_singleton] at member
            rcases member with (before | rfl) | later | after
            · exact inside a (List.mem_append_left _ before)
            · exact belongs
            · exact inside a (by simp [later])
            · exact closed head belongs a after
          have enough' : domain.length ≤ budget + (visited ++ [head]).length := by
            simp only [List.length_append, List.length_singleton]
            omega
          obtain ⟨later, found, visits⟩ := ih distinct' inside' enough'
          exact ⟨head :: later, by simpa using found, .skip known (.visit new visits)⟩

theorem visits_reach {starts : List α} (closed : ∀ a ∈ domain, ∀ b ∈ next a, b ∈ domain)
    (inside : ∀ a ∈ starts, a ∈ domain) : Visits next starts [] (reach next domain starts) := by
  obtain ⟨later, found, visits⟩ : ∃ later, reach next domain starts = [] ++ later ∧ Visits next starts [] later :=
    explore_visits closed List.nodup_nil inside (by simp)
  rwa [found]

end Search

end Dataflow
