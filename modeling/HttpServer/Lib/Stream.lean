import HttpServer.Lib.Incremental

/-!
# Serving a stream

A recogniser takes values off the front of a text, one after the other,
and a handler with a state of its own gets each of them and says whether
to go on (`serve`). The text comes in pieces: what is left of it when
the recogniser runs out waits for the next piece (`Served.feed`).

With a stable recogniser the pieces do not matter. What is served on a
text and then on more of it is what is served on the two together
(`serve_append`), so that a stream cut anywhere is served as a whole.
-/

namespace Incremental

variable {β μ ε α α' σ : Type}

/-! ## Recognisers that take something -/

/-- The recogniser takes what it takes off the front. -/
def Shortens (p : List β → Res β μ ε α) : Prop :=
  ∀ s a rest, p s = .done a rest → rest <:+ s

/-- The recogniser takes at least one element. -/
def Takes (p : List β → Res β μ ε α) : Prop :=
  ∀ s a rest, p s = .done a rest → rest <:+ s ∧ rest.length < s.length

theorem Takes.shortens {p : List β → Res β μ ε α} (h : Takes p) : Shortens p :=
  fun s a rest hs => (h s a rest hs).1

theorem shortens_done (a : α) : Shortens fun s : List β => (Res.done a s : Res β μ ε α) := by
  rintro s b rest hs
  obtain ⟨-, rfl⟩ := Res.done.inj hs
  exact List.suffix_rfl

section

variable {p : List β → Res β μ ε α} {f : α → List β → Res β μ ε α'}

theorem bind_eq_done {r : Res β μ ε α} {b : α'} {rest : List β} :
    r.bind f = .done b rest ↔ ∃ a mid, r = .done a mid ∧ f a mid = .done b rest := by
  cases r <;> simp

theorem Shortens.bind (hp : Shortens p) (hf : ∀ a, Shortens (f a)) :
    Shortens fun s => (p s).bind f := by
  intro s b rest hs
  obtain ⟨a, mid, hmid, hrest⟩ := bind_eq_done.mp hs
  exact (hf a _ _ _ hrest).trans (hp _ _ _ hmid)

theorem Takes.bind (hp : Takes p) (hf : ∀ a, Shortens (f a)) :
    Takes fun s => (p s).bind f := by
  intro s b rest hs
  obtain ⟨a, mid, hmid, hrest⟩ := bind_eq_done.mp hs
  obtain ⟨hsuf, hlt⟩ := hp _ _ _ hmid
  have hrest := hf a _ _ _ hrest
  exact ⟨hrest.trans hsuf, Nat.lt_of_le_of_lt hrest.length_le hlt⟩

theorem Shortens.bind_takes (hp : Shortens p) (hf : ∀ a, Takes (f a)) :
    Takes fun s => (p s).bind f := by
  intro s b rest hs
  obtain ⟨a, mid, hmid, hrest⟩ := bind_eq_done.mp hs
  obtain ⟨hsuf, hlt⟩ := hf a _ _ _ hrest
  have hmid := hp _ _ _ hmid
  exact ⟨hsuf.trans hmid, Nat.lt_of_lt_of_le hlt hmid.length_le⟩

end

/-- A stable recogniser that takes something off the text. -/
structure Recogniser (β μ ε α : Type) where
  read : List β → Res β μ ε α
  stable : Stable read
  takes : Takes read

/-! ## Serving -/

/-- Why serving has come to an end: the recogniser wants more, it has
failed, or the handler does not go on. -/
inductive Stop (μ ε : Type) where
  | more (m : μ)
  | fail (e : ε)
  | quit
deriving DecidableEq, Repr

/-- The handler's state, the text that is left, and why. -/
structure Served (β μ ε σ : Type) where
  state : σ
  rest : List β
  stop : Stop μ ε

section

variable (p : Recogniser β μ ε α) (f : σ → α → σ × Bool)

/-- Values are taken off the text and handed over as long as there are
any. -/
def serve (x : σ) (s : List β) : Served β μ ε σ :=
  match _ : p.read s with
  | .more m => ⟨x, s, .more m⟩
  | .fail e => ⟨x, s, .fail e⟩
  | .done a rest =>
      if (f x a).2 then serve (f x a).1 rest else ⟨(f x a).1, rest, .quit⟩
termination_by s.length
decreasing_by exact (p.takes _ _ _ ‹_›).2

/-- More of the text arrives. After a failure or when the handler has had
enough it is left where it is. -/
def Served.feed (r : Served β μ ε σ) (t : List β) : Served β μ ε σ :=
  match r.stop with
  | .more _ => serve p f r.state (r.rest ++ t)
  | .fail _ | .quit => { r with rest := r.rest ++ t }

variable {p f} {x : σ} {s t : List β}

theorem serve_more {m : μ} (h : p.read s = .more m) : serve p f x s = ⟨x, s, .more m⟩ := by
  rw [serve]
  split
  · next heq => rw [h] at heq; cases heq; rfl
  · next heq => rw [h] at heq; cases heq
  · next heq => rw [h] at heq; cases heq

theorem serve_fail {e : ε} (h : p.read s = .fail e) : serve p f x s = ⟨x, s, .fail e⟩ := by
  rw [serve]
  split
  · next heq => rw [h] at heq; cases heq
  · next heq => rw [h] at heq; cases heq; rfl
  · next heq => rw [h] at heq; cases heq

theorem serve_done {a : α} {rest : List β} (h : p.read s = .done a rest) : serve p f x s
    = if (f x a).2 then serve p f (f x a).1 rest else ⟨(f x a).1, rest, .quit⟩ := by
  rw [serve]
  split
  · next heq => rw [h] at heq; cases heq
  · next heq => rw [h] at heq; cases heq
  · next heq => rw [h] at heq; cases heq; rfl

/-- The induction rule: a text, and what is left of it behind the value
at its front. -/
theorem serve_induction (p : Recogniser β μ ε α) {P : List β → Prop}
    (h : ∀ s, (∀ a rest, p.read s = .done a rest → P rest) → P s) (s : List β) : P s := by
  induction hn : s.length using Nat.strongRecOn generalizing s with
  | ind n ih =>
      refine h s fun a rest hs => ih rest.length ?_ rest rfl
      rw [← hn]
      exact (p.takes _ _ _ hs).2

/-- Serving goes on where it has stopped. -/
theorem serve_append (s t : List β) (x : σ) :
    serve p f x (s ++ t) = (serve p f x s).feed p f t := by
  induction s using serve_induction p generalizing x with
  | h s ih =>
      cases hs : p.read s with
      | more m => rw [serve_more hs, Served.feed]
      | fail e => rw [serve_fail hs, serve_fail ((p.stable s).fail hs t), Served.feed]
      | done a rest =>
          rw [serve_done hs, serve_done ((p.stable s).done hs t)]
          by_cases hf : (f x a).2 = true
          · rw [if_pos hf, if_pos hf]
            exact ih a rest hs _
          · rw [if_neg hf, if_neg hf, Served.feed]

/-- What is left is what the recogniser has stopped at. -/
theorem serve_rest {m : μ} (h : (serve p f x s).stop = .more m) :
    p.read (serve p f x s).rest = .more m := by
  induction s using serve_induction p generalizing x with
  | h s ih =>
      cases hs : p.read s with
      | more m' =>
          rw [serve_more hs] at h ⊢
          obtain rfl := Stop.more.inj h
          exact hs
      | fail e =>
          rw [serve_fail hs] at h
          cases h
      | done a rest =>
          rw [serve_done hs] at h ⊢
          split at h
          · next hf =>
              rw [if_pos hf]
              exact ih a rest hs h
          · cases h

/-- Values whose texts stand one behind the other, with a handler that
takes them all. -/
theorem serve_values {ι : Type} {text : ι → List β} {value : ι → α} {is : List ι}
    (hread : ∀ i ∈ is, ∀ t, p.read (text i ++ t) = .done (value i) t)
    (hgo : ∀ i ∈ is, ∀ x, (f x (value i)).2 = true) (x : σ) (t : List β) :
    serve p f x (is.flatMap text ++ t)
      = serve p f (is.foldl (fun x i => (f x (value i)).1) x) t := by
  induction is generalizing x with
  | nil => rfl
  | cons i is ih =>
      rw [List.flatMap_cons, List.append_assoc, serve_done (hread i List.mem_cons_self _),
        if_pos (hgo i List.mem_cons_self x), List.foldl_cons]
      exact ih (fun j hj => hread j (List.mem_cons_of_mem i hj))
        (fun j hj => hgo j (List.mem_cons_of_mem i hj)) _

end

end Incremental
