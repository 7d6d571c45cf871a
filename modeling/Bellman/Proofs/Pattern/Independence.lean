import Bellman.Proofs.Pattern.Instances

/-!
# Rewritings that leave a pattern alone

Rewriting by one pattern leaves another one alone if nothing that it writes holds the start of
an instance, or can be the end of one that begins in front of it. Which instances there are and
what is written is known up to spacing, so both are questions about finitely many words. Then
the other pattern is found where it was found before: `LeavesAlone.occursIn_rewrite_self` says
that rewriting exhausts a pattern, and `rewrite_comm` that two rewritings which leave each
other alone commute.
-/

namespace Bellman.Pattern

open Text

variable {p q : Pattern} {f g : List Char → List Char} {m rest cs : List Char}

/-- Rewriting by a pattern makes no instance of another pattern. -/
structure LeavesAlone (p : Pattern) (f : List Char → List Char) (q : Pattern) : Prop where
  /-- What is written begins with a visible character. -/
  starts : ∀ m, (f m).head?.any (!isBlank ·) = true
  /-- No instance begins in what is written. -/
  inside : ∀ w ∈ q.forms, ∀ m, Avoids w (visible (f m))
  /-- No instance that begins before what is written reaches into it. -/
  reaching : ∀ w ∈ q.forms, ∀ m, Avoids (visible (f m)) w.tail
  /-- Instances do not see that what stands behind them is rewritten. -/
  behind : ∀ m cs, q.Matches m (p.rewrite f cs) ↔ q.Matches m cs

/-- The start of a rewritten text is kept, or it reaches into what was written. -/
theorem Solid.cases_of_rewrite_eq_append (solid : p.Solid) {w : List Char}
    (h : p.rewrite f cs = w ++ rest) :
    (∃ cs', cs = w ++ cs' ∧ rest = p.rewrite f cs') ∨
      ∃ kept reached m, w = kept ++ reached ∧ reached ≠ [] ∧ Agree reached (f m) := by
  induction cs using solid.scan generalizing w with
  | nil =>
      obtain ⟨rfl, rfl⟩ := List.append_eq_nil_iff.mp h.symm
      exact .inl ⟨[], rfl, rfl⟩
  | found m cs hm hmatches hread ih =>
      by_cases hw : w = []
      · subst hw
        exact .inl ⟨m ++ cs, rfl, h.symm⟩
      · rw [rewrite_append hm hread] at h
        have hagree : Agree w (f m) := agree_of_prefix_append (h ▸ List.prefix_append w rest)
        exact .inr ⟨[], w, m, rfl, hw, hagree⟩
  | kept c cs hread ih =>
      rw [rewrite_cons hread] at h
      cases w with
      | nil => exact .inl ⟨c :: cs, rfl, by rw [rewrite_cons hread]; exact h.symm⟩
      | cons d w =>
          obtain ⟨rfl, htail⟩ := List.cons.inj h
          obtain ⟨cs', rfl, hrest⟩ | ⟨kept, reached, m, rfl, hreached⟩ := ih htail
          · exact .inl ⟨cs', rfl, hrest⟩
          · exact .inr ⟨c :: kept, reached, m, rfl, hreached⟩

namespace LeavesAlone

/-- Up to spacing what reaches into a text that is written goes on like that. -/
private theorem agree_visible {a b : List Char} (h : Agree a b) :
    Agree (visible a) (visible b) := by
  obtain ⟨t, rfl⟩ | ⟨t, rfl⟩ := h
  · exact .inl (by rw [visible_append]; exact List.prefix_append _ _)
  · exact .inr (by rw [visible_append]; exact List.prefix_append _ _)

/-- What reaches into a text that begins with a visible character is visible. -/
private theorem visible_ne_nil {a b : List Char} (ha : a ≠ [])
    (hb : b.head?.any (!isBlank ·) = true) (h : Agree a b) : visible a ≠ [] := by
  obtain ⟨x, xs, rfl⟩ := List.exists_cons_of_ne_nil ha
  cases b with
  | nil => cases hb
  | cons y ys =>
      have hx : isBlank x = false := by simpa [h.head_eq] using hb
      simp [visible_cons, hx]

/-- Where a pattern could not be read it cannot be read after rewriting what follows. -/
theorem read?_rewrite (h : LeavesAlone p f q) (hp : p.Solid) (hq : q.Solid)
    (determined : q.Determined) {c : Char} (hread : q.read? (c :: cs) = none) :
    q.read? (c :: p.rewrite f cs) = none := by
  by_contra hsome
  obtain ⟨⟨m, rest⟩, hsome⟩ := Option.ne_none_iff_exists'.mp hsome
  obtain ⟨-, hcs, hmatches⟩ := hq.of_read? hsome
  obtain ⟨d, w, rfl, hd⟩ := hq m rest hmatches
  obtain ⟨rfl, hrewrite⟩ := List.cons.inj hcs
  obtain ⟨cs', rfl, rfl⟩ | ⟨kept, reached, m, rfl, hreached, hagree⟩ :=
    hp.cases_of_rewrite_eq_append hrewrite
  · have hold := determined (c :: w) cs' ((h.behind (c :: w) cs').mp hmatches)
    rw [List.cons_append, hread] at hold
    cases hold
  · -- The form of the instance would end in the start of what is written.
    have hform := h.reaching _ (visible_mem_forms hmatches) m
    have htail : (visible (c :: (kept ++ reached))).tail = visible kept ++ visible reached := by
      simp [visible_cons, hd]
    have hvisible := visible_ne_nil hreached (h.starts m) hagree
    rw [htail] at hform
    have hdrop := hform.drop (i := (visible kept).length)
      (by simpa using List.length_pos_iff.mpr hvisible)
    rw [List.drop_left] at hdrop
    exact hdrop (agree_visible hagree).symm

/-- Rewriting leaves no occurrence behind if it makes none. -/
theorem occursIn_rewrite_self (h : LeavesAlone p f p) (solid : p.Solid)
    (determined : p.Determined) (cs : List Char) : p.occursIn (p.rewrite f cs) = false := by
  induction cs using solid.scan with
  | nil => exact solid.occursIn_nil
  | found m rest hm _ hread ih =>
      rw [rewrite_append hm hread, solid.occursIn_append_of_avoids fun w hw => h.inside w hw m, ih]
  | kept c cs hread ih =>
      rw [rewrite_cons hread, occursIn, h.read?_rewrite solid solid determined hread, ih]
      rfl

/-- What a pattern finds stays and is found after rewriting what follows. -/
theorem rewrite_found (h : LeavesAlone p f q) (hp : p.Solid) (determined : q.Determined)
    (apart : ∀ v ∈ p.forms, ∀ w ∈ q.forms, Avoids v w) (hmatches : q.Matches m rest) :
    p.rewrite f (m ++ rest) = m ++ p.rewrite f rest ∧
      q.read? (m ++ p.rewrite f rest) = some (m, p.rewrite f rest) :=
  ⟨hp.rewrite_append_of_avoids (fun v hv => apart v hv _ (visible_mem_forms hmatches)) f rest,
    determined m _ ((h.behind m rest).mpr hmatches)⟩

end LeavesAlone

theorem read?_orElse_eq_some {r : List Char × List Char} :
    (p.orElse q).read? cs = some r ↔
      p.read? cs = some r ∨ p.read? cs = none ∧ q.read? cs = some r := by
  rw [read?]
  cases p.read? cs with
  | none => simp
  | some r' => simp

theorem read?_orElse_eq_none :
    (p.orElse q).read? cs = none ↔ p.read? cs = none ∧ q.read? cs = none := by
  rw [read?]
  cases p.read? cs with
  | none => simp
  | some r' => simp

/-- Rewriting by one pattern and then by another in the same way is rewriting by both at
once, if the first leaves the second alone. -/
theorem LeavesAlone.rewrite_rewrite (h : LeavesAlone p f q) (hp : p.Solid) (hq : q.Solid)
    (determined : q.Determined) (apart : ∀ v ∈ p.forms, ∀ w ∈ q.forms, Avoids v w)
    (cs : List Char) : q.rewrite f (p.rewrite f cs) = (p.orElse q).rewrite f cs := by
  induction cs using (hp.orElse hq).scan with
  | nil => rfl
  | found m rest hm hmatches hread ih =>
      rw [rewrite_append hm hread]
      obtain hfirst | ⟨-, hsecond⟩ := read?_orElse_eq_some.mp hread
      · rw [rewrite_append hm hfirst, hq.rewrite_append_of_avoids fun w hw => h.inside w hw m, ih]
      · obtain ⟨hkept, hfound⟩ :=
          h.rewrite_found hp determined apart (matches_of_read? hsecond)
        rw [hkept, rewrite_append hm hfound, ih]
  | kept c cs hread ih =>
      obtain ⟨hfirst, hsecond⟩ := read?_orElse_eq_none.mp hread
      rw [rewrite_cons hread, rewrite_cons hfirst,
        rewrite_cons (h.read?_rewrite hp hq determined hsecond), ih]

/-- Two rewritings that leave each other's pattern alone, where no instance of one pattern
begins inside of one of the other. -/
structure Independent (p : Pattern) (f : List Char → List Char) (q : Pattern)
    (g : List Char → List Char) : Prop where
  first : LeavesAlone p f q
  second : LeavesAlone q g p
  apart : ∀ v ∈ p.forms, ∀ w ∈ q.forms, Avoids v w ∧ Avoids w v

namespace Independent

theorem symm (h : Independent p f q g) : Independent q g p f :=
  ⟨h.second, h.first, fun w hw v hv => (h.apart v hv w hw).symm⟩

/-- Rewriting by the one pattern neither makes nor takes away occurrences of the other. -/
theorem occursIn_rewrite (h : Independent p f q g) (hp : p.Solid) (hq : q.Solid)
    (determined : q.Determined) (cs : List Char) :
    q.occursIn (p.rewrite f cs) = q.occursIn cs := by
  induction cs using (hp.orElse hq).scan with
  | nil => rfl
  | found m rest hm hmatches hread ih =>
      obtain hfirst | ⟨-, hsecond⟩ := read?_orElse_eq_some.mp hread
      · have hform := visible_mem_forms (matches_of_read? hfirst)
        rw [rewrite_append hm hfirst,
          hq.occursIn_append_of_avoids fun w hw => h.first.inside w hw m, ih,
          hq.occursIn_append_of_avoids fun w hw => (h.apart _ hform w hw).2]
      · obtain ⟨hkept, hfound⟩ := h.first.rewrite_found hp determined
          (fun v hv w hw => (h.apart v hv w hw).1) (matches_of_read? hsecond)
        have hoccurs {x : List Char} (hx : q.read? (m ++ x) = some (m, x)) :
            q.occursIn (m ++ x) = true :=
          occursIn_iff_read?.mpr ⟨[], m ++ x, rfl, by rw [hx]; rfl⟩
        rw [hkept, hoccurs hfound, hoccurs hsecond]
  | kept c cs hread ih =>
      obtain ⟨hfirst, hsecond⟩ := read?_orElse_eq_none.mp hread
      rw [rewrite_cons hfirst, occursIn, occursIn, hsecond,
        h.first.read?_rewrite hp hq determined hsecond, ih]

/-- Independent rewritings commute. -/
theorem rewrite_comm (h : Independent p f q g) (hp : p.Solid) (hq : q.Solid)
    (hp' : p.Determined) (hq' : q.Determined) (cs : List Char) :
    q.rewrite g (p.rewrite f cs) = p.rewrite f (q.rewrite g cs) := by
  induction cs using (hp.orElse hq).scan with
  | nil => rfl
  | found m rest hm hmatches hread ih =>
      obtain hfirst | ⟨-, hsecond⟩ := read?_orElse_eq_some.mp hread
      · obtain ⟨hkept, hfound⟩ := h.second.rewrite_found hq hp'
          (fun w hw v hv => (h.apart v hv w hw).2) (matches_of_read? hfirst)
        rw [hkept, rewrite_append hm hfound, rewrite_append hm hfirst,
          hq.rewrite_append_of_avoids fun w hw => h.first.inside w hw m, ih]
      · obtain ⟨hkept, hfound⟩ := h.first.rewrite_found hp hq'
          (fun v hv w hw => (h.apart v hv w hw).1) (matches_of_read? hsecond)
        rw [hkept, rewrite_append hm hfound, rewrite_append hm hsecond,
          hp.rewrite_append_of_avoids fun v hv => h.second.inside v hv m, ih]
  | kept c cs hread ih =>
      obtain ⟨hfirst, hsecond⟩ := read?_orElse_eq_none.mp hread
      rw [rewrite_cons hfirst, rewrite_cons hsecond,
        rewrite_cons (h.first.read?_rewrite hp hq hq' hsecond),
        rewrite_cons (h.second.read?_rewrite hq hp hp' hfirst), ih]

end Independent

end Bellman.Pattern
