import LiquidLint.Proofs.Correction.Run
import Mathlib.Data.List.Nodup
import Mathlib.Data.List.Perm.Subperm

/-!
# The edits that are applied

Of the edits of a schedule some are applied and the others are skipped. `taken` are those that are
applied, in the order in which this is done. They are what the counts of a patch count
(`applied_applyAll`, `skipped_applyAll`), they lie one before the other in the source
(`pairwise_taken`, `fits_of_mem_taken`), and on their own they have the same effect as together with
those that are skipped (`text_applyAll_taken`). An edit is skipped for a reason (`mem_taken_or`), and
when the edits are apart there is none (`skipped_of_apart`).

So where no edit is applied nothing changes: when every edit that is applied lies before or behind a
region of the source, the region stands in the result as it was, between what the edits before it and
what the edits behind it make of the rest (`exists_frame`).
-/

namespace LiquidLint.Correction

open Patch (edit)

variable {source : Text} {P : Patch} {c : Correction} {L cs : List Correction}

/-- The bytes that an edit takes away lie between two offsets. -/
def Inside (start stop : Nat) (c : Correction) : Prop :=
  start ≤ c.range.start ∧ c.range.start ≤ c.range.stop ∧ c.range.stop ≤ stop

instance (start stop : Nat) (c : Correction) : Decidable (c.Inside start stop) :=
  inferInstanceAs (Decidable (_ ∧ _ ∧ _))

/-- An edit has a place before `limit` in a source, between characters. -/
def Fits (source : Text) (limit : Nat) (c : Correction) : Prop :=
  c.Inside 0 limit ∧ source.isBoundary c.range.start = true ∧ source.isBoundary c.range.stop = true

instance (source : Text) (limit : Nat) (c : Correction) : Decidable (c.Fits source limit) :=
  inferInstanceAs (Decidable (_ ∧ _ ∧ _))

/-! ### One edit -/

namespace Patch

/-- Up to its limit the text of a patch is that of the source. -/
def Follows (source : Text) (P : Patch) : Prop :=
  ∃ kept rest settled, source = kept ++ rest ∧ kept.size = P.limit ∧ P.text = kept ++ settled

theorem follows_start (source : Text) : (start source).Follows source :=
  ⟨source, [], [], by simp, rfl, by simp [start]⟩

theorem accepts_iff : P.accepts source c = true ↔ c.Fits source P.limit := by
  unfold accepts Fits Inside
  simp only [Bool.and_eq_true, decide_eq_true_eq, Nat.zero_le, true_and]
  constructor
  · rintro ⟨⟨⟨hle, h1⟩, h2⟩, hlimit⟩
    exact ⟨⟨hle, hlimit⟩, h1, h2⟩
  · rintro ⟨⟨hle, hlimit⟩, h1, h2⟩
    exact ⟨⟨⟨hle, h1⟩, h2⟩, hlimit⟩

/-- **An edit that is accepted** is applied, and what lies before it is untouched. -/
theorem Follows.edit_of_accepts (h : P.Follows source) (hc : P.accepts source c = true) :
    (edit source P c).Follows source ∧ (edit source P c).limit = c.range.start ∧
      (edit source P c).applied = P.applied + 1 ∧ (edit source P c).skipped = P.skipped := by
  obtain ⟨⟨-, hle, hlimit⟩, h1, h2⟩ := accepts_iff.1 hc
  obtain ⟨kept, rest, settled, hsource, hkept, htext⟩ := h
  -- the edit cuts the untouched part into what is before, in and behind its range
  obtain ⟨u, v, hu, hstop⟩ := Text.isBoundary_iff.1 h2
  obtain ⟨m, rfl, -⟩ := Text.exists_append_of_size_le (hu.symm.trans hsource) (by omega)
  obtain ⟨a, v', ha, hstart⟩ := Text.isBoundary_iff.1 h1
  obtain ⟨g, rfl, -⟩ := Text.exists_append_of_size_le (ha.symm.trans hu) (by omega)
  rw [Text.size_append] at hstop
  have hedit := edit_append (c := c) (a := a) (g := g) (z := m ++ settled) (by rw [htext]; simp)
    hstart.symm (by omega) h1 h2 hlimit
  rw [hedit]
  exact ⟨⟨a, g ++ (m ++ rest), c.text.toList ++ (m ++ settled), by rw [hsource]; simp, hstart, rfl⟩,
    rfl, rfl, rfl⟩

theorem edit_of_not_accepts (hc : ¬ P.accepts source c = true) : edit source P c = P.skip := by
  unfold edit
  rw [if_neg hc]

/-- What an edit does depends on the text and the limit alone. -/
theorem edit_congr {Q : Patch} (htext : P.text = Q.text) (hlimit : P.limit = Q.limit)
    (c : Correction) : (edit source P c).text = (edit source Q c).text ∧
      (edit source P c).limit = (edit source Q c).limit := by
  have haccepts : P.accepts source c = Q.accepts source c := by
    unfold accepts
    rw [hlimit]
  unfold edit
  rw [haccepts, htext]
  split
  · split
    · exact ⟨rfl, rfl⟩
    · exact ⟨htext, hlimit⟩
  · exact ⟨htext, hlimit⟩

theorem foldl_congr {Q : Patch} (htext : P.text = Q.text) (hlimit : P.limit = Q.limit)
    (L : List Correction) :
    (L.foldl (edit source) P).text = (L.foldl (edit source) Q).text := by
  induction L generalizing P Q with
  | nil => exact htext
  | cons c L ih =>
    obtain ⟨htext', hlimit'⟩ := edit_congr htext hlimit c
    exact ih htext' hlimit'

/-! ### A list of edits -/

/-- The edits of a list that are applied when they are tried one after the other. -/
def takes (source : Text) (P : Patch) : List Correction → List Correction
  | [] => []
  | c :: L =>
    let later := takes source (edit source P c) L
    if P.accepts source c then c :: later else later

theorem takes_of_accepts (hc : P.accepts source c = true) :
    takes source P (c :: L) = c :: takes source (edit source P c) L := if_pos hc

theorem takes_of_not_accepts (hc : ¬ P.accepts source c = true) :
    takes source P (c :: L) = takes source P.skip L := by
  rw [← edit_of_not_accepts hc]
  exact if_neg hc

theorem takes_sublist (source : Text) (P : Patch) (L : List Correction) :
    (takes source P L).Sublist L := by
  induction L generalizing P with
  | nil => exact List.Sublist.refl []
  | cons c L ih =>
    by_cases hc : P.accepts source c = true
    · rw [takes_of_accepts hc]
      exact (ih _).cons_cons c
    · rw [takes_of_not_accepts hc]
      exact (ih _).cons c

/-- **The counts of a patch**: edits that are taken are applied, the others are skipped. -/
theorem Follows.counts (h : P.Follows source) (L : List Correction) :
    (L.foldl (edit source) P).applied = P.applied + (takes source P L).length ∧
      (L.foldl (edit source) P).skipped + (takes source P L).length = P.skipped + L.length := by
  induction L generalizing P with
  | nil => exact ⟨rfl, rfl⟩
  | cons c L ih =>
    rw [List.foldl_cons, List.length_cons]
    by_cases hc : P.accepts source c = true
    · obtain ⟨hfollows, -, happlied, hskipped⟩ := h.edit_of_accepts hc
      obtain ⟨h1, h2⟩ := ih hfollows
      rw [takes_of_accepts hc, List.length_cons]
      omega
    · -- a skipped edit changes the count only, so the patch still follows the source
      obtain ⟨h1, h2⟩ := ih (P := P.skip) h
      have happlied : P.skip.applied = P.applied := rfl
      have hskipped : P.skip.skipped = P.skipped + 1 := rfl
      rw [takes_of_not_accepts hc, edit_of_not_accepts hc]
      omega

/-- Edits that are taken lie inside the part that is not settled, between characters of the
source. -/
theorem Follows.fits_of_mem_takes (h : P.Follows source) (hc : c ∈ takes source P L) :
    c.Fits source P.limit := by
  induction L generalizing P with
  | nil => cases hc
  | cons d L ih =>
    by_cases hd : P.accepts source d = true
    · obtain ⟨hfollows, hlimit, -⟩ := h.edit_of_accepts hd
      obtain ⟨⟨-, hle, hstop⟩, hbounds⟩ := accepts_iff.1 hd
      rw [takes_of_accepts hd] at hc
      rcases List.mem_cons.1 hc with rfl | hc
      · exact ⟨⟨Nat.zero_le _, hle, hstop⟩, hbounds⟩
      · obtain ⟨⟨-, hle', hstop'⟩, hbounds'⟩ := ih hfollows hc
        rw [hlimit] at hstop'
        exact ⟨⟨Nat.zero_le _, hle', by omega⟩, hbounds'⟩
    · rw [takes_of_not_accepts hd] at hc
      exact ih (P := P.skip) h hc

/-- **An edit is taken unless** it does not fit into the part that is not settled, or one that is taken
starts inside it. -/
theorem Follows.mem_takes_or (h : P.Follows source)
    (hL : L.Pairwise fun c d => d.range.start ≤ c.range.start) (hc : c ∈ L) :
    c ∈ takes source P L ∨ ¬ c.Fits source P.limit ∨
      ∃ d ∈ takes source P L, c.range.start ≤ d.range.start ∧ d.range.start < c.range.stop := by
  -- along the schedule, with the patch as it is before each edit
  induction L generalizing P with
  | nil => cases hc
  | cons d L ih =>
    obtain ⟨hlater, hL⟩ := List.pairwise_cons.1 hL
    by_cases hd : P.accepts source d = true
    · obtain ⟨hfollows, hlimit, -⟩ := h.edit_of_accepts hd
      rw [takes_of_accepts hd]
      rcases List.mem_cons.1 hc with rfl | hc
      · exact Or.inl (List.mem_cons_self ..)
      · rcases ih hfollows hL hc with htaken | hunfit | ⟨e, he, hinside⟩
        · exact Or.inl (List.mem_cons_of_mem _ htaken)
        · -- what does not fit any more is too long for the part that the last edit has left
          by_cases hlt : d.range.start < c.range.stop
          · exact Or.inr (Or.inr ⟨d, List.mem_cons_self .., hlater c hc, hlt⟩)
          · refine Or.inr (Or.inl fun hfit => hunfit ⟨⟨Nat.zero_le _, hfit.1.2.1, ?_⟩, hfit.2⟩)
            omega
        · exact Or.inr (Or.inr ⟨e, List.mem_cons_of_mem _ he, hinside⟩)
    · rw [takes_of_not_accepts hd]
      rcases List.mem_cons.1 hc with rfl | hc
      · exact Or.inr (Or.inl fun hfit => hd (accepts_iff.2 hfit))
      · exact ih (P := P.skip) h hL hc

/-- Of two edits that are taken the later one lies further left. -/
theorem Follows.pairwise_takes (h : P.Follows source) (L : List Correction) :
    (takes source P L).Pairwise fun c d => d.range.stop ≤ c.range.start := by
  induction L generalizing P with
  | nil => exact List.Pairwise.nil
  | cons c L ih =>
    by_cases hc : P.accepts source c = true
    · obtain ⟨hfollows, hlimit, -⟩ := h.edit_of_accepts hc
      rw [takes_of_accepts hc]
      refine List.pairwise_cons.2 ⟨fun d hd => ?_, ih hfollows⟩
      -- later edits lie before the new limit, which is where this one starts
      have hstop := (hfollows.fits_of_mem_takes hd).1.2.2
      omega
    · rw [takes_of_not_accepts hc]
      exact ih (P := P.skip) h

/-- Edits that are skipped leave no trace in the text. -/
theorem text_foldl_takes (source : Text) (P : Patch) (L : List Correction) :
    ((takes source P L).foldl (edit source) P).text = (L.foldl (edit source) P).text := by
  induction L generalizing P with
  | nil => rfl
  | cons c L ih =>
    by_cases hc : P.accepts source c = true
    · rw [takes_of_accepts hc, List.foldl_cons, List.foldl_cons, ih]
    · rw [takes_of_not_accepts hc, List.foldl_cons, edit_of_not_accepts hc, ← ih]
      exact foldl_congr (P := P) (Q := P.skip) rfl rfl _

end Patch

/-! ### All edits of a source -/

/-- The edits that are applied to a source, in the order in which this is done. -/
def taken (source : Text) (cs : List Correction) : List Correction :=
  Patch.takes source (.start source) (schedule cs)

theorem taken_sublist (source : Text) (cs : List Correction) :
    (taken source cs).Sublist (schedule cs) := Patch.takes_sublist source _ _

theorem mem_of_mem_taken (h : c ∈ taken source cs) : c ∈ cs :=
  mem_schedule.1 ((taken_sublist source cs).subset h)

theorem applied_applyAll (source : Text) (cs : List Correction) :
    (applyAll source cs).applied = (taken source cs).length :=
  ((Patch.follows_start source).counts (schedule cs)).1.trans (Nat.zero_add _)

/-- **The count of skipped edits** is zero exactly when all edits are applied. -/
theorem skipped_applyAll (source : Text) (cs : List Correction) :
    (applyAll source cs).skipped = 0 ↔ taken source cs = schedule cs := by
  have hcounts : (applyAll source cs).skipped + (taken source cs).length = (schedule cs).length :=
    ((Patch.follows_start source).counts (schedule cs)).2.trans (Nat.zero_add _)
  constructor
  · intro hzero
    exact (taken_sublist source cs).eq_of_length (by omega)
  · intro hall
    rw [hall] at hcounts
    omega

/-- Edits that are all skipped change nothing. -/
theorem text_of_applied (h : (applyAll source cs).applied = 0) :
    (applyAll source cs).text = source := by
  rw [applied_applyAll] at h
  have hnone : Patch.takes source (.start source) (schedule cs) = [] := List.length_eq_zero_iff.1 h
  unfold applyAll
  rw [← Patch.text_foldl_takes, hnone]
  rfl

theorem fits_of_mem_taken (h : c ∈ taken source cs) : c.Fits source source.size :=
  (Patch.follows_start source).fits_of_mem_takes h

/-- **Why an edit is skipped**: it has no place in the source, or an edit that is applied starts inside
it. -/
theorem mem_taken_or (h : c ∈ cs) : c ∈ taken source cs ∨ ¬ c.Fits source source.size ∨
    ∃ d ∈ taken source cs, c.range.start ≤ d.range.start ∧ d.range.start < c.range.stop :=
  (Patch.follows_start source).mem_takes_or (pairwise_start_schedule cs) (mem_schedule.2 h)

/-- **Edits that are apart** and have a place in the source are all applied. -/
theorem skipped_of_apart (htidy : ∀ c ∈ cs, c.Tidy)
    (hfits : ∀ c ∈ cs, c.Fits source source.size)
    (hapart : ∀ c ∈ cs, ∀ d ∈ cs, c ≠ d → c.Apart d) : (applyAll source cs).skipped = 0 := by
  -- an edit that fits is taken unless one starts inside it
  have hall : ∀ c ∈ cs, c ∈ taken source cs := by
    intro c hc
    rcases mem_taken_or hc with htaken | hmisfit | ⟨d, hd, hle, hlt⟩
    · exact htaken
    · exact absurd (hfits c hc) hmisfit
    · -- an edit that starts inside this one is not apart from it, so it is this one
      by_contra hskipped
      have hne : c ≠ d := by
        rintro rfl
        exact hskipped hd
      have hd' := mem_of_mem_taken hd
      have hbounds := (hfits d hd').1.2.1
      rcases hapart c hc d hd' hne with h | h
      · omega
      · omega
  -- the schedule has no edit twice, so all of it is taken
  have hnodup : (schedule cs).Nodup := (pairwise_schedule htidy).imp fun h => h.2
  have hsubset : schedule cs ⊆ taken source cs := fun c hc => hall c (mem_schedule.1 hc)
  rw [skipped_applyAll]
  exact (taken_sublist source cs).eq_of_length_le (hnodup.subperm hsubset).length_le

theorem pairwise_taken (source : Text) (cs : List Correction) :
    (taken source cs).Pairwise fun c d => d.range.stop ≤ c.range.start :=
  (Patch.follows_start source).pairwise_takes _

/-- What is in order is its own schedule. -/
theorem schedule_of_pairwise (h : L.Pairwise Before) : schedule L = L := by
  have hdedup : ∀ L : List Correction, L.Pairwise Before → dedup L = L := by
    intro L h
    fun_induction dedup L with
    | case1 => rfl
    | case2 => rfl
    | case3 a rest _ =>
      exact absurd rfl (List.rel_of_pairwise_cons h (List.mem_cons_self ..)).2
    | case4 a b rest _ ih => rw [ih h.of_cons]
  unfold schedule
  rw [List.mergeSort_of_pairwise (h.imp fun hab => hab.1), hdedup L h]

/-- Edits from left to right are scheduled the other way round. -/
theorem schedule_of_increasing (h : cs.Pairwise fun c d => c.range.start < d.range.start) :
    schedule cs = cs.reverse := by
  have hstarts : (cs.map (·.range.start)).Nodup := List.pairwise_map.2 (h.imp Nat.ne_of_lt)
  have htwins : NoTwins cs := by
    rintro c hc d hd ⟨hne, hrange, -⟩
    exact hne (List.inj_on_of_nodup_map hstarts hc hd (congrArg Span.start hrange))
  rw [htwins.schedule_of_mem_iff fun _ => List.mem_reverse.symm]
  exact schedule_of_pairwise (List.pairwise_reverse.2 (h.imp Before.of_start_lt))

/-- Edits of which no two are twins are applied alike, however they are arranged. -/
theorem applyAll_of_mem_iff (source : Text) {ds : List Correction} (htwins : NoTwins cs)
    (hmem : ∀ c, c ∈ ds ↔ c ∈ cs) : applyAll source ds = applyAll source cs := by
  unfold applyAll
  rw [htwins.schedule_of_mem_iff fun c => (hmem c).symm]

/-- Edits from left to right are applied from right to left. -/
theorem applyAll_of_increasing (h : cs.Pairwise fun c d => c.range.start < d.range.start) :
    applyAll source cs = cs.reverse.foldl (Patch.edit source) (.start source) := by
  unfold applyAll
  rw [schedule_of_increasing h]

theorem pairwise_before_taken (htidy : ∀ c ∈ cs, c.Tidy) :
    (taken source cs).Pairwise Before :=
  (pairwise_schedule htidy).sublist (taken_sublist source cs)

/-- **The edits that are applied** do the same on their own. -/
theorem text_applyAll_taken (htidy : ∀ c ∈ cs, c.Tidy) :
    (applyAll source (taken source cs)).text = (applyAll source cs).text := by
  unfold applyAll
  rw [schedule_of_pairwise (pairwise_before_taken htidy)]
  exact Patch.text_foldl_takes source _ _

/-! ### Regions without edits -/

/-- A part of the source can be cut where the source can. -/
theorem exists_append_of_isBoundary {t : Text} {offset x : Nat} (ht : Text.Stands source offset t)
    (hx : source.isBoundary x = true) (h1 : offset ≤ x) (h2 : x ≤ offset + t.size) :
    ∃ l r, t = l ++ r ∧ x = offset + l.size := by
  obtain ⟨pre, post, hsource, rfl⟩ := ht
  obtain ⟨u, v, hu, rfl⟩ := Text.isBoundary_iff.1 hx
  obtain ⟨l, rfl, hl⟩ := Text.exists_append_of_size_le (hsource.symm.trans hu) h1
  rw [Text.size_append] at h2
  obtain ⟨r, rfl, -⟩ := Text.exists_append_of_size_le hl.symm (by omega)
  exact ⟨l, r, rfl, Text.size_append pre l⟩

/-- **Edits inside a part** that lie one before the other turn the part into something, whatever
stands around it. -/
theorem exists_runs {t : Text} {offset : Nat} (ht : Text.Stands source offset t)
    (hapart : L.Pairwise fun c d => d.range.stop ≤ c.range.start)
    (hinside : ∀ c ∈ L, c.Inside offset (offset + t.size))
    (hbounds : ∀ c ∈ L, source.isBoundary c.range.start = true ∧
      source.isBoundary c.range.stop = true) : ∃ t', Runs source L offset t t' := by
  -- the first edit is the last one in the part, so the others lie before it
  induction L generalizing t with
  | nil => exact ⟨t, Runs.nil⟩
  | cons c L ih =>
    obtain ⟨hlater, hapart⟩ := List.pairwise_cons.1 hapart
    obtain ⟨⟨h1, h2, h3⟩, hinside⟩ := List.forall_mem_cons.1 hinside
    obtain ⟨⟨hstart, hstop⟩, hbounds⟩ := List.forall_mem_cons.1 hbounds
    obtain ⟨u, z, rfl, hu⟩ := exists_append_of_isBoundary ht hstop (by omega) h3
    obtain ⟨a, g, rfl, ha⟩ := exists_append_of_isBoundary ht.left hstart h1 (by omega)
    rw [Text.size_append] at hu
    have hinside' : ∀ d ∈ L, d.Inside offset (offset + a.size) := by
      intro d hd
      obtain ⟨hd1, hd2, -⟩ := hinside d hd
      have hd3 := hlater d hd
      exact ⟨hd1, hd2, by omega⟩
    obtain ⟨a', hrun⟩ := ih ht.left.left hapart hinside' hbounds
    have hsingle : Runs source [c] (offset + a.size) g c.text.toList :=
      Runs.single ht.left.right ha (by omega)
    have hlast : Runs source ([] ++ [c]) (offset + a.size) (g ++ z) (c.text.toList ++ z) :=
      Runs.nil.append hsingle
    refine ⟨a' ++ (c.text.toList ++ z), ?_⟩
    rw [List.append_assoc]
    exact hlast.append hrun

/-- Edits in order that lie before or behind a region fall into those behind it and those before
it. -/
theorem filter_inside_append {start stop size : Nat} (hL : L.Pairwise Before) (hlt : start < stop)
    (hmem : ∀ c ∈ L, c.Inside 0 start ∨ c.Inside stop size) :
    L.filter (·.Inside stop size) ++ L.filter (·.Inside 0 start) = L := by
  have hbefore : ∀ c : Correction, c.Inside 0 start → c.range.start < stop := by
    rintro c ⟨-, h1, h2⟩
    omega
  have hbehind : ∀ c : Correction, c.Inside stop size → stop ≤ c.range.start := fun c h => h.1
  have hnot : ∀ c : Correction, c.Inside 0 start → ¬ c.Inside stop size := by
    intro c h h'
    have h1 := hbefore c h
    have h2 := hbehind c h'
    omega
  -- the end of the region tells the two kinds apart
  obtain ⟨R, M, rfl, -, -, hR, hM⟩ := exists_parts hL hmem hbefore hbehind
  have hfilterR : (R ++ M).filter (·.Inside stop size) = R := by
    rw [List.filter_append, List.filter_eq_self.2, List.filter_eq_nil_iff.2, List.append_nil]
    · intro c hc hin
      exact hnot c ((hM c).1 hc).2 (of_decide_eq_true hin)
    · intro c hc
      exact decide_eq_true ((hR c).1 hc).2
  have hfilterM : (R ++ M).filter (·.Inside 0 start) = M := by
    rw [List.filter_append, List.filter_eq_nil_iff.2, List.nil_append, List.filter_eq_self.2]
    · intro c hc
      exact decide_eq_true ((hM c).1 hc).2
    · intro c hc hin
      exact hnot c (of_decide_eq_true hin) ((hR c).1 hc).2
  rw [hfilterR, hfilterM]

theorem text_of_runs {t : Text} (hL : L.Pairwise Before) (h : Runs source L 0 source t) :
    (applyAll source L).text = t := by
  refine (Runs.applyAll ?_).1
  rwa [schedule_of_pairwise hL]

/-- The edits that are applied inside a part turn the part into something. -/
theorem exists_runs_inside {t : Text} {start stop : Nat} (ht : Text.Stands source start t)
    (hstop : stop = start + t.size) (cs : List Correction) :
    ∃ t', Runs source ((taken source cs).filter (·.Inside start stop)) start t t' := by
  refine exists_runs ht ((pairwise_taken source cs).sublist List.filter_sublist) ?_ ?_
  · intro c hc
    rw [← hstop]
    exact of_decide_eq_true (List.mem_filter.1 hc).2
  · intro c hc
    exact (fits_of_mem_taken (List.mem_filter.1 hc).1).2

/-- **Regions without edits**: when each edit that is applied lies before or behind a region, the
result is what the edits before it make of the source before it, then the region as it was, then what
the edits behind it make of the source behind it. -/
theorem exists_frame {before region after : Text} (hsource : source = before ++ (region ++ after))
    (hne : region ≠ []) (htidy : ∀ c ∈ cs, c.Tidy)
    (hclear : ∀ c ∈ taken source cs, c.Inside 0 before.size ∨
      c.Inside (before ++ region).size source.size) :
    ∃ before' after', (applyAll source cs).text = before' ++ (region ++ after') ∧
      (applyAll source ((taken source cs).filter (·.Inside 0 before.size))).text =
        before' ++ (region ++ after) ∧
      (applyAll source ((taken source cs).filter
        (·.Inside (before ++ region).size source.size))).text = before ++ (region ++ after') := by
  have hpos := Text.size_pos hne
  have hstands : Text.Stands source 0 (before ++ (region ++ after)) := hsource ▸ Text.stands_self _
  have hbefore : before.size = 0 + before.size := (Nat.zero_add _).symm
  have hregion : (before ++ region).size = 0 + before.size + region.size := by
    rw [Text.size_append, ← hbefore]
  have hafter : source.size = (before ++ region).size + after.size := by
    rw [hsource, ← List.append_assoc, Text.size_append]
  rw [hregion] at hclear hafter ⊢
  have hordered : (taken source cs).Pairwise Before := pairwise_before_taken htidy
  have hsides := filter_inside_append hordered (by omega) hclear
  -- each side is run on its own, and then both
  obtain ⟨before', hrunL⟩ := exists_runs_inside hstands.left hbefore cs
  obtain ⟨after', hrunR⟩ := exists_runs_inside hstands.right.right hafter cs
  have hbehind := hrunR.append (Runs.nil (t := region))
  have honlyR := hbehind.append (Runs.nil (t := before))
  have honlyL := (Runs.nil (t := region ++ after)).append hrunL
  have hall := hbehind.append hrunL
  rw [List.append_nil, ← hsource] at hall honlyR
  rw [List.nil_append, ← hsource] at honlyL
  rw [hsides] at hall
  rw [List.append_nil] at honlyR
  refine ⟨before', after', ?_, ?_, ?_⟩
  · rw [← text_applyAll_taken htidy]
    exact text_of_runs hordered hall
  · exact text_of_runs (hordered.sublist List.filter_sublist) honlyL
  · exact text_of_runs (hordered.sublist List.filter_sublist) honlyR

end LiquidLint.Correction
