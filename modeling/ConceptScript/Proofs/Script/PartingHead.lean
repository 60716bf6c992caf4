import ConceptScript.Proofs.Script.Parting

/-!
# `ConceptScript.Proofs.Script.PartingHead`: choosing a head at a cut

A head is read as several types at parallel readers. If not all tokens up
to the end of the shorter stream are readable, no reading parts the
readers, and the same type is chosen in both streams. If they are, another
type may be chosen, or none. But then what is chosen in the shorter stream
stands before a token that ends no statement, or before the end
(`headOutcome_choose`).
-/

set_option autoImplicit false

namespace ConceptScript.Script

variable {m : Model} {last : Token} {post : List Token}

/-- What comes of reading a head at parallel readers, where `w` are the
common tokens after the first one. -/
inductive HeadOutcome (last : Token) (post w : List Token) (r r' : Reader) :
    Except Failure (Node × Reader) → Except Failure (Node × Reader) → Prop
  | same {n : Node} {s s' : Reader} {t : Token} {read ahead : List Token}
      (reads : r.Reads (t :: read) s) (split : w = read ++ ahead)
      (parallel : Parallel last post ahead s s') :
      HeadOutcome last post w r r' (.ok (n, s)) (.ok (n, s'))
  | failed {f f' : Failure} : HeadOutcome last post w r r' (.error f) (.error f')
  /-- All tokens to come are readable, so none of them ends a statement. -/
  | parted {x x' : Except Failure (Node × Reader)} (readable : ∀ u ∈ w, u.Readable)
      (first : ∀ n s, x = .ok (n, s) → ∃ ahead, ahead <:+ w ∧ s.rest = ahead ++ [last])
      (second : ∀ n s', x' = .ok (n, s') → ∃ ahead, ahead <:+ w
        ∧ (s'.rest = ahead ++ post ∨ s'.rest <:+ post)) :
      HeadOutcome last post w r r' x x'

/-- What is chosen depends on which interpretations succeed and on how much
they read. -/
theorem choose_map_congr {word : String} {index : Nat} (index' : Nat) {types : List ConceptType}
    {f f' : ConceptType → Interpretation}
    (hresult : ∀ c ∈ types, ∀ n, (f c).result = .ok n ↔ (f' c).result = .ok n)
    (hposition : ∀ c ∈ types, ∀ n, (f c).result = .ok n →
      (f' c).reader.position = (f c).reader.position) {n : Node} {r : Reader}
    (h : choose m word index (types.map f) = .ok (n, r)) :
    ∃ c ∈ types, (f c).result = .ok n ∧ (f c).reader = r
      ∧ choose m word index' (types.map f') = .ok (n, (f' c).reader) := by
  obtain ⟨before, i, after, hall, hn, hr, hshorter⟩ := choose_eq_ok_iff.mp h
  obtain ⟨types₁, rest, rfl, rfl, hrest⟩ := List.map_eq_append_iff.mp hall
  obtain ⟨c, types₂, rfl, rfl, rfl⟩ := List.map_eq_cons_iff.mp hrest
  have hc : c ∈ types₁ ++ c :: types₂ := List.mem_append_right _ List.mem_cons_self
  refine ⟨c, hc, hn, hr, choose_eq_ok_iff.mpr ⟨types₁.map f', f' c, types₂.map f', by simp,
    (hresult c hc n).mp hn, rfl, fun j hj n' hn' => ?_⟩⟩
  -- What is shorter in the one list of interpretations is so in the other.
  rw [← List.map_append] at hj
  obtain ⟨d, hd, rfl⟩ := List.mem_map.mp hj
  have hmem : d ∈ types₁ ++ c :: types₂ := by
    simp only [List.mem_append, List.mem_cons] at hd ⊢
    tauto
  have hsuccess := (hresult d hmem n').mpr hn'
  have hlt := hshorter (f d) (List.map_append ▸ List.mem_map_of_mem hd) n' hsuccess
  rw [hposition d hmem n' hsuccess, hposition c hc n hn, hr]
  exact hlt

/-- What is chosen was read as one of the types. -/
theorem exists_of_choose_map {word : String} {index : Nat} {types : List ConceptType}
    {f : ConceptType → Interpretation} {n : Node} {r : Reader}
    (h : choose m word index (types.map f) = .ok (n, r)) :
    ∃ c ∈ types, (f c).result = .ok n ∧ (f c).reader = r := by
  obtain ⟨i, hi, hn, hr⟩ := mem_successes (choose_mem_successes h)
  obtain ⟨c, hc, rfl⟩ := List.mem_map.mp hi
  exact ⟨c, hc, hn, hr⟩

variable {t : Token} {w : List Token} {r r' : Reader}

/-- A head that was read holds its keyword, so less than all is ahead. -/
theorem suffix_of_interpret {context : List Node} {c : ConceptType} {n : Node}
    {ahead : List Token} (h : Parallel last post (t :: w) r r')
    (hn : (interpret m context c r).result = .ok n) {s' : Reader}
    (hparallel : Parallel last post ahead (interpret m context c r).reader s') {read : List Token}
    (hreads : r.Reads read (interpret m context c r).reader) :
    ∃ tail, read = t :: tail ∧ w = tail ++ ahead := by
  have hlt := interpret_rest_length_lt hn
  have hsplit := h.split hreads hparallel
  cases read with
  | nil =>
    -- A head that was read took at least one token.
    rw [h.rest, hparallel.rest, hsplit] at hlt
    exact absurd hlt (Nat.lt_irrefl _)
  | cons u tail =>
    obtain ⟨rfl, htail⟩ := List.cons.inj hsplit
    exact ⟨tail, rfl, htail⟩

/-- The choice comes out alike at parallel readers, unless all common tokens
ahead are readable: only then can a type be read past them. -/
theorem headOutcome_choose (hlast : last.isEnd = true) (context : List Node) (word : String)
    (index index' : Nat) (types : List ConceptType) (h : Parallel last post (t :: w) r r') :
    HeadOutcome last post w r r'
      (choose m word index (types.map fun c => interpret m context c r))
      (choose m word index' (types.map fun c => interpret m context c r')) := by
  have hwatched := fun c => (watched_interpret (m := m) hlast c context h).agree_or_parted
  by_cases hreadable : ∀ u ∈ w, u.Readable
  · -- Whatever was chosen, only readable tokens or the late ones are ahead.
    refine .parted hreadable (fun n s hchoose => ?_) fun n s' hchoose => ?_
    · obtain ⟨c, _, hn, rfl⟩ := exists_of_choose_map hchoose
      rcases hwatched c with ⟨_, read, ahead, hreads, hparallel⟩ | ⟨_, ⟨why, hwhy⟩, _⟩
      · obtain ⟨tail, _, hw⟩ := suffix_of_interpret h hn hparallel hreads
        exact ⟨ahead, ⟨tail, hw.symm⟩, hparallel.rest⟩
      · cases hn.symm.trans hwhy
    · obtain ⟨c, _, hn, rfl⟩ := exists_of_choose_map hchoose
      rcases hwatched c with ⟨hvalue, read, ahead, hreads, hparallel⟩ | ⟨_, _, past, hreads'⟩
      · obtain ⟨tail, _, hw⟩ := suffix_of_interpret h (hvalue.symm.trans hn) hparallel hreads
        exact ⟨ahead, ⟨tail, hw.symm⟩, .inl hparallel.rest'⟩
      · refine ⟨[], List.nil_suffix, .inr ⟨past, ?_⟩⟩
        have hrest := hreads'.rest
        rw [h.rest', List.append_assoc] at hrest
        exact (List.append_cancel_left hrest).symm
  · -- A token ahead is not readable, so no type parts the readers.
    have hsame : ∀ c, (interpret m context c r').result = (interpret m context c r).result
        ∧ ∃ read ahead, r.Reads read (interpret m context c r).reader
          ∧ Parallel last post ahead (interpret m context c r).reader
            (interpret m context c r').reader := by
      intro c
      rcases hwatched c with hagree | ⟨hall, _⟩
      · exact hagree
      · exact absurd (fun u hu => hall u (List.mem_cons_of_mem t hu)) hreadable
    have hposition : ∀ c, (interpret m context c r').reader.position
        = (interpret m context c r).reader.position := by
      intro c
      obtain ⟨_, _, _, _, hparallel⟩ := hsame c
      exact congrArg List.length hparallel.before
    have hresult : ∀ c n, (interpret m context c r).result = .ok n ↔
        (interpret m context c r').result = .ok n := by
      intro c n
      rw [(hsame c).1]
    cases hchoose : choose m word index (types.map fun c => interpret m context c r) with
    | ok best =>
      obtain ⟨n, s⟩ := best
      obtain ⟨c, _, hn, rfl, hchoose'⟩ := choose_map_congr index'
        (fun c _ => hresult c) (fun c _ _ _ => hposition c) hchoose
      obtain ⟨_, read, ahead, hreads, hparallel⟩ := hsame c
      obtain ⟨tail, rfl, hw⟩ := suffix_of_interpret h hn hparallel hreads
      rw [hchoose']
      exact .same hreads hw hparallel
    | error f =>
      cases hchoose' : choose m word index' (types.map fun c => interpret m context c r') with
      | error f' => exact .failed
      | ok best =>
        obtain ⟨_, _, _, _, hback⟩ := choose_map_congr index
          (fun c _ n => (hresult c n).symm) (fun c _ _ _ => (hposition c).symm) hchoose'
        cases hchoose.symm.trans hback

end ConceptScript.Script
