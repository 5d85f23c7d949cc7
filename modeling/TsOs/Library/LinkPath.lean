import Mathlib.Tactic

/-!
# Paths along a successor function

`Path next p l q` says that following `next` from `p` visits exactly the
nodes of `l`, in order, and then stands at `q`. A singly linked list ended by
a null node and a chain of table entries ended by a mark are both paths. The
two edits of such structures, skipping a node and linking one in, are stated
for any new successor function that agrees with the old one on the nodes that
stay, so that they apply to a memory as well as to a table. A search along the
successors ends at the first node with a property, if there is one. A walk stops also
where it would visit a node again, so that among finitely many nodes there is always one.
-/

namespace LinkPath

variable {α : Type*}

/-- Following `next` from `p` visits `l` and arrives at `q`. -/
def Path (next : α → α) : α → List α → α → Prop
  | p, [], q => p = q
  | p, x :: l, q => p = x ∧ Path next (next x) l q

variable {next next' : α → α} {p q : α}

@[simp] theorem path_nil : Path next p [] q ↔ p = q := Iff.rfl

@[simp] theorem path_cons {x : α} {l : List α} :
    Path next p (x :: l) q ↔ p = x ∧ Path next (next x) l q := Iff.rfl

/-- A path through a concatenation stops at the seam. -/
theorem path_append {l₁ l₂ : List α} :
    Path next p (l₁ ++ l₂) q ↔ ∃ r, Path next p l₁ r ∧ Path next r l₂ q := by
  induction l₁ generalizing p with
  | nil => simp
  | cons x l ih => simp [ih, and_assoc]

theorem path_append_cons {l₁ l₂ : List α} {x : α} :
    Path next p (l₁ ++ x :: l₂) q ↔ Path next p l₁ x ∧ Path next (next x) l₂ q := by
  rw [path_append]
  constructor
  · rintro ⟨r, h₁, rfl, h₂⟩
    exact ⟨h₁, h₂⟩
  · rintro ⟨h₁, h₂⟩
    exact ⟨x, h₁, rfl, h₂⟩

/-- A path reads the successor of its own nodes only. -/
theorem Path.congr {l : List α} (h : Path next p l q)
    (hagree : ∀ x ∈ l, next' x = next x) : Path next' p l q := by
  induction l generalizing p with
  | nil => exact h
  | cons x l ih =>
      obtain ⟨hp, htail⟩ := h
      refine ⟨hp, ?_⟩
      rw [hagree x (by simp)]
      exact ih htail fun y hy => hagree y (by simp [hy])

/-- The start of a path is its first node, or its end when it is empty. -/
theorem Path.start_eq {l : List α} (h : Path next p l q) : p = l.headD q := by
  cases l with
  | nil => exact h
  | cons x l => exact h.1

/-- Pointing `x` past its successor `d` removes `d` from the path. -/
theorem Path.unlink {l₁ l₂ : List α} {x d : α} (h : Path next p (l₁ ++ x :: d :: l₂) q)
    (hx : next' x = next d) (hagree : ∀ y ∈ l₁ ++ l₂, next' y = next y) :
    Path next' p (l₁ ++ x :: l₂) q := by
  obtain ⟨h₁, -, h₂⟩ := path_append_cons.mp h
  refine path_append_cons.mpr ⟨h₁.congr fun y hy => hagree y (by simp [hy]), ?_⟩
  rw [hx]
  exact h₂.congr fun y hy => hagree y (by simp [hy])

/-- Pointing `x` at `d`, and `d` where `x` pointed, inserts `d` after `x`. -/
theorem Path.link {l₁ l₂ : List α} {x d : α} (h : Path next p (l₁ ++ x :: l₂) q)
    (hx : next' x = d) (hd : next' d = next x) (hagree : ∀ y ∈ l₁ ++ l₂, next' y = next y) :
    Path next' p (l₁ ++ x :: d :: l₂) q := by
  obtain ⟨h₁, h₂⟩ := path_append_cons.mp h
  refine path_append_cons.mpr ⟨h₁.congr fun y hy => hagree y (by simp [hy]), hx, ?_⟩
  rw [hd]
  exact h₂.congr fun y hy => hagree y (by simp [hy])

/-- The nodes of a path determine where it ends. -/
theorem Path.end_unique {l : List α} {q' : α} (h : Path next p l q) (h' : Path next p l q') :
    q = q' := by
  induction l generalizing p with
  | nil => exact h.symm.trans h'
  | cons x l ih => exact ih h.2 h'.2

/-- Of two paths from one node, one goes on where the other one ends. -/
theorem Path.prefix_or_prefix {l l' : List α} {q' : α} (h : Path next p l q) (h' : Path next p l' q') :
    l <+: l' ∨ l' <+: l := by
  induction l generalizing p l' with
  | nil => exact Or.inl List.nil_prefix
  | cons x l ih =>
      obtain ⟨rfl, htail⟩ := h
      cases l' with
      | nil => exact Or.inr List.nil_prefix
      | cons y l' =>
          obtain ⟨rfl, htail'⟩ := h'
          rcases ih htail htail' with hpre | hpre
          · exact Or.inl (List.cons_prefix_cons.mpr ⟨rfl, hpre⟩)
          · exact Or.inr (List.cons_prefix_cons.mpr ⟨rfl, hpre⟩)

/-- A path that does not get to the end of another one from the same node stops at a node of it. -/
theorem Path.mem_of_not_mem {l l' : List α} {q' : α} (h : Path next p l q) (h' : Path next p l' q')
    (hl : q' ∉ l) (hne : q ≠ q') : q ∈ l' := by
  rcases h.prefix_or_prefix h' with ⟨t, rfl⟩ | ⟨t, rfl⟩
  · obtain ⟨r, hr, htail⟩ := path_append.mp h'
    obtain rfl := h.end_unique hr
    cases t with
    | nil => exact absurd htail hne
    | cons x t =>
        obtain ⟨rfl, -⟩ := htail
        simp
  · obtain ⟨r, hr, htail⟩ := path_append.mp h
    obtain rfl := h'.end_unique hr
    cases t with
    | nil => exact absurd htail.symm hne
    | cons x t =>
        obtain ⟨rfl, -⟩ := htail
        exact absurd (by simp) hl

/-- Two paths with the same ends that stop at their first arrival are the same. -/
theorem Path.eq_of_not_mem {l l' : List α} (h : Path next p l q) (h' : Path next p l' q) (hq : q ∉ l)
    (hq' : q ∉ l') : l = l' := by
  induction l generalizing p l' with
  | nil =>
      cases l' with
      | nil => rfl
      | cons a l' =>
          have hpa : p = a := h'.1
          have hpq : p = q := h
          exact absurd (hpq.symm.trans hpa) (List.ne_of_not_mem_cons hq')
  | cons a l ih =>
      obtain ⟨rfl, htail⟩ := h
      cases l' with
      | nil =>
          have hpq : p = q := h'
          exact absurd hpq.symm (List.ne_of_not_mem_cons hq)
      | cons b l' =>
          obtain ⟨rfl, htail'⟩ := h'
          rw [ih htail htail' (List.not_mem_of_not_mem_cons hq)
            (List.not_mem_of_not_mem_cons hq')]

/-- A path that stops at its first arrival visits no node twice. -/
theorem Path.nodup {l : List α} (h : Path next p l q) (hq : q ∉ l) : l.Nodup := by
  induction l generalizing p with
  | nil => exact List.nodup_nil
  | cons x l ih =>
      obtain ⟨-, htail⟩ := h
      have hql : q ∉ l := List.not_mem_of_not_mem_cons hq
      refine List.nodup_cons.mpr ⟨?_, ih htail hql⟩
      intro hx
      obtain ⟨l₁, l₂, rfl⟩ := List.append_of_mem hx
      -- After the second visit the path would continue as after the first one.
      have hrest : Path next (next x) l₂ q := (path_append_cons.mp htail).2
      have heq : l₁ ++ x :: l₂ = l₂ :=
        htail.eq_of_not_mem hrest hql fun hmem => hql (by simp [hmem])
      have hlen := congrArg List.length heq
      rw [List.length_append, List.length_cons] at hlen
      omega

/-! ## The first node with a property -/

variable (next) in
/-- Following `next` from `p`, the first node with `stop` is `q`. -/
def Arrives (stop : α → Prop) (p q : α) : Prop :=
  ∃ l, Path next p l q ∧ (∀ x ∈ l, ¬stop x) ∧ stop q

variable {stop : α → Prop}

theorem Arrives.of_stop (hp : stop p) : Arrives next stop p p :=
  ⟨[], rfl, fun _ hx => absurd hx List.not_mem_nil, hp⟩

theorem Arrives.step (hp : ¬stop p) (h : Arrives next stop (next p) q) : Arrives next stop p q := by
  obtain ⟨l, hpath, hl, hq⟩ := h
  exact ⟨p :: l, ⟨rfl, hpath⟩, List.forall_mem_cons.mpr ⟨hp, hl⟩, hq⟩

theorem Arrives.eq_of_stop (h : Arrives next stop p q) (hp : stop p) : q = p := by
  obtain ⟨l, hpath, hl, -⟩ := h
  cases l with
  | nil => exact hpath.symm
  | cons x l =>
      obtain rfl := hpath.1
      exact absurd hp (hl p List.mem_cons_self)

theorem Arrives.tail (h : Arrives next stop p q) (hp : ¬stop p) : Arrives next stop (next p) q := by
  obtain ⟨l, hpath, hl, hq⟩ := h
  cases l with
  | nil =>
      obtain rfl : p = q := hpath
      exact absurd hq hp
  | cons x l =>
      obtain ⟨rfl, htail⟩ := hpath
      exact ⟨l, htail, fun y hy => hl y (List.mem_cons_of_mem _ hy), hq⟩

theorem Arrives.unique {q' : α} (h : Arrives next stop p q) (h' : Arrives next stop p q') : q = q' := by
  obtain ⟨l, hpath, hl, hq⟩ := h
  induction l generalizing p with
  | nil =>
      obtain rfl : p = q := hpath
      exact (h'.eq_of_stop hq).symm
  | cons x l ih =>
      obtain ⟨rfl, htail⟩ := hpath
      exact ih (h'.tail (hl p List.mem_cons_self)) htail fun y hy => hl y (List.mem_cons_of_mem _ hy)

/-- Distinct nodes of a finite set are not more than it has. -/
theorem length_le_card {S : Finset α} {l : List α} (hl : ∀ x ∈ l, x ∈ S) (hnodup : l.Nodup) :
    l.length ≤ S.card := by
  classical
  have hsub : l.toFinset ⊆ S := fun x hx => hl x (List.mem_toFinset.mp hx)
  calc
    l.length = l.toFinset.card := (List.toFinset_card_of_nodup hnodup).symm
    _ ≤ S.card := Finset.card_le_card hsub

/-- With finitely many nodes on the way the path is short. -/
theorem Arrives.exists_path (h : Arrives next stop p q) (S : Finset α) (hS : ∀ x, ¬stop x → x ∈ S) :
    ∃ l, Path next p l q ∧ (∀ x ∈ l, ¬stop x) ∧ stop q ∧ l.length ≤ S.card := by
  obtain ⟨l, hpath, hl, hq⟩ := h
  have hnodup : l.Nodup := hpath.nodup fun hmem => hl q hmem hq
  exact ⟨l, hpath, hl, hq, length_le_card (fun x hx => hS x (hl x hx)) hnodup⟩

/-- Two successor functions arrive at related nodes when they do so wherever they differ. -/
theorem Arrives.transfer {R : α → α → Prop} (hrefl : ∀ x, R x x)
    (hdiff : ∀ x y, next' x ≠ next x → Arrives next stop x y → ∃ z, Arrives next' stop x z ∧ R y z)
    (h : Arrives next stop p q) : ∃ z, Arrives next' stop p z ∧ R q z := by
  obtain ⟨l, hpath, hl, hq⟩ := h
  induction l generalizing p with
  | nil =>
      obtain rfl : p = q := hpath
      exact ⟨p, Arrives.of_stop hq, hrefl p⟩
  | cons x l ih =>
      obtain ⟨rfl, htail⟩ := hpath
      by_cases hsame : next' p = next p
      · obtain ⟨z, hz, hr⟩ := ih htail fun y hy => hl y (List.mem_cons_of_mem _ hy)
        rw [← hsame] at hz
        exact ⟨z, hz.step (hl p List.mem_cons_self), hr⟩
      · exact hdiff p q hsame ⟨p :: l, ⟨rfl, htail⟩, hl, hq⟩

/-! ## Walks -/

variable (next) in
/-- Following `next` from `p` visits the nodes of `l`, all `good` and no one twice. It stops at `q`, which
is not good or has been visited. -/
structure Walk (good : α → Prop) (p : α) (l : List α) (q : α) : Prop where
  path : Path next p l q
  nodes : ∀ x ∈ l, good x
  nodup : l.Nodup
  stop : good q → q ∈ l

variable {good : α → Prop}

/-- A path among finitely many good nodes goes on to the end of a walk. -/
theorem Path.exists_walk {A : List α} {q : α} (S : Finset α) (hS : ∀ x, good x → x ∈ S) (h : Path next p A q)
    (hgood : ∀ x ∈ A, good x) (hnodup : A.Nodup) : ∃ l r, Walk next good p l r := by
  have hcard : A.length ≤ S.card := length_le_card (fun x hx => hS x (hgood x hx)) hnodup
  by_cases hq : good q ∧ q ∉ A
  · obtain ⟨hgq, hnot⟩ := hq
    have hpath : Path next p (A ++ [q]) (next q) := path_append_cons.mpr ⟨h, rfl⟩
    have hnodup' : (A ++ [q]).Nodup := List.concat_eq_append ▸ hnodup.concat hnot
    refine hpath.exists_walk S hS ?_ hnodup'
    intro x hx
    rcases List.mem_append.mp hx with hx | hx
    · exact hgood x hx
    · rwa [List.mem_singleton.mp hx]
  · exact ⟨A, q, h, hgood, hnodup, fun hgq => by_contra fun hnot => hq ⟨hgq, hnot⟩⟩
termination_by S.card + 1 - A.length
decreasing_by
  rw [List.length_append, List.length_singleton]
  omega

theorem exists_walk (S : Finset α) (hS : ∀ x, good x → x ∈ S) (p : α) : ∃ l q, Walk next good p l q :=
  (path_nil.mpr rfl : Path next p [] p).exists_walk S hS (by simp) List.nodup_nil

theorem Walk.length_le {l : List α} (h : Walk next good p l q) (S : Finset α) (hS : ∀ x, good x → x ∈ S) :
    l.length ≤ S.card :=
  length_le_card (fun x hx => hS x (h.nodes x hx)) h.nodup

/-- A walk does not stop where another one goes on. -/
theorem Walk.eq_of_prefix {l t : List α} {r : α} (h : Walk next good p l q)
    (h' : Walk next good p (l ++ t) r) : t = [] := by
  cases t with
  | nil => rfl
  | cons x t =>
      obtain ⟨hx, -⟩ := path_append_cons.mp h'.path
      obtain rfl := h.path.end_unique hx
      have hmem : q ∈ l := h.stop (h'.nodes q (by simp))
      exact absurd hmem fun hq => (List.nodup_append.mp h'.nodup).2.2 q hq q (by simp) rfl

/-- There is one walk from each node. -/
theorem Walk.unique {l l' : List α} {r : α} (h : Walk next good p l q) (h' : Walk next good p l' r) :
    l = l' ∧ q = r := by
  have heq : l = l' := by
    rcases h.path.prefix_or_prefix h'.path with ⟨t, rfl⟩ | ⟨t, rfl⟩
    · rw [h.eq_of_prefix h', List.append_nil]
    · rw [h'.eq_of_prefix h, List.append_nil]
  subst heq
  exact ⟨rfl, h.path.end_unique h'.path⟩

end LinkPath
