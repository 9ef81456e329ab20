/-!
Breadth-first search. Elements are taken from the front of a queue, each element of the domain is visited
the first time it comes up, and its successors go to the end of the queue. Elements outside the domain are
passed over. No more elements are visited than the domain has, which is why the search ends.
-/

namespace Dataflow
namespace Search
variable {α : Type} [DecidableEq α]

def fresh (domain visited queue : List α) : List α :=
  queue.dropWhile fun a => a ∈ visited || a ∉ domain

/-- The visited elements in order of first visit, started with a queue and what is visited already. At most
`budget` more are visited. -/
def explore (next : α → List α) (domain : List α) : Nat → List α → List α → List α
  | 0, _, visited => visited
  | budget + 1, queue, visited =>
      match fresh domain visited queue with
      | [] => visited
      | a :: rest => explore next domain budget (rest ++ next a) (visited ++ [a])

def reach (next : α → List α) (domain starts : List α) : List α :=
  explore next domain domain.length starts []

theorem head_fresh {domain visited queue rest : List α} {a : α}
    (front : fresh domain visited queue = a :: rest) : a ∉ visited ∧ a ∈ domain := by
  have kept := List.head?_dropWhile_not (fun a => a ∈ visited || a ∉ domain) queue
  rw [← fresh, front] at kept
  simpa using kept

theorem explore_nodup {next : α → List α} {domain : List α} {budget : Nat} {queue visited : List α}
    (distinct : visited.Nodup) : (explore next domain budget queue visited).Nodup := by
  induction budget generalizing queue visited with
  | zero => exact distinct
  | succ budget ih =>
      unfold explore
      split
      · exact distinct
      · rename_i a rest front
        refine ih (List.nodup_append.mpr ⟨distinct, by simp, ?_⟩)
        intro b visitedBefore c here
        rw [List.mem_singleton.mp here]
        exact fun same => (head_fresh front).1 (same ▸ visitedBefore)

theorem mem_domain_of_mem_explore {next : α → List α} {domain : List α} {budget : Nat}
    {queue visited : List α} (inside : ∀ a ∈ visited, a ∈ domain) :
    ∀ a ∈ explore next domain budget queue visited, a ∈ domain := by
  induction budget generalizing queue visited with
  | zero => exact inside
  | succ budget ih =>
      unfold explore
      split
      · exact inside
      · rename_i a rest front
        refine ih fun b member => ?_
        rcases List.mem_append.mp member with before | here
        · exact inside b before
        · exact List.mem_singleton.mp here ▸ (head_fresh front).2

theorem reach_nodup (next : α → List α) (domain starts : List α) : (reach next domain starts).Nodup :=
  explore_nodup List.nodup_nil

theorem mem_domain_of_mem_reach {next : α → List α} {domain starts : List α} {a : α}
    (reached : a ∈ reach next domain starts) : a ∈ domain :=
  mem_domain_of_mem_explore (by simp) a reached

end Search
end Dataflow
