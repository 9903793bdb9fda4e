import Unlucky21.Templates.Copies

/-!
# The ring of template slots

Every call of the parser takes the next slot, also one that fails. A template
that was handed out is used for as long as its stratum job lives: it stays what
the node sent until the parser comes round to its slot again.
-/

namespace BlockTemplates

/-- `template_data` and `next_template_index` -/
structure Ring where
  slots : ℕ → TemplateData := fun _ => {}
  nextTemplateIndex : ℕ := 0

variable (hdr : Header)

/-- `get_next_template_ptr` -/
def getNextTemplatePtr (r : Ring) : Ring × ℕ :=
  let i := r.nextTemplateIndex
  ({ slots := Function.update r.slots i (r.slots i).clear
     nextTemplateIndex := if hdr.maxTemplatesInMemory ≤ i + 1 then 0 else i + 1 }, i)

/-- A call of the parser: what the node answers, and what becomes of the ring where
the parser writes behind a field. -/
structure Call where
  gbt : JsonT
  damage : Ring → Ring := id

def Ring.step (r : Ring) (c : Call) : Ring :=
  let (r, i) := getNextTemplatePtr hdr r
  let r := { r with slots := Function.update r.slots i (datumGbtParser hdr c.gbt (r.slots i)).1.t }
  if answerFits hdr c.gbt then r else c.damage r

/-- The slot it returns. -/
def Ring.template (r : Ring) (gbt : JsonT) : Option ℕ :=
  let (r, i) := getNextTemplatePtr hdr r
  match datumGbtParser hdr gbt (r.slots i) with
  | (_, none) => some i
  | (_, some _) => none

variable {hdr}

theorem Ring.step_eq {c : Call} (hfit : answerFits hdr c.gbt = true) (r : Ring) :
    (r.step hdr c).nextTemplateIndex =
        (if hdr.maxTemplatesInMemory ≤ r.nextTemplateIndex + 1 then 0
          else r.nextTemplateIndex + 1) ∧
      (r.step hdr c).slots = Function.update r.slots r.nextTemplateIndex
        (datumGbtParser hdr c.gbt (r.slots r.nextTemplateIndex).clear).1.t := by
  simp only [Ring.step, getNextTemplatePtr, Function.update_self, hfit, if_true,
    Function.update_idem, and_self]

theorem Ring.template_eq_some {r : Ring} {gbt : JsonT} {i : ℕ} (h : r.template hdr gbt = some i) :
    i = r.nextTemplateIndex ∧
      (datumGbtParser hdr gbt (r.slots r.nextTemplateIndex).clear).2 = none := by
  simp only [Ring.template, getNextTemplatePtr, Function.update_self] at h
  split at h
  · rename_i p hparse
    rw [hparse]
    exact ⟨(Option.some.inj h).symm, rfl⟩
  · cases h

theorem nextIndex_eq {m : ℕ} (hm : 0 < m) (n : ℕ) :
    (if m ≤ n % m + 1 then 0 else n % m + 1) = (n + 1) % m := by
  have hlt := Nat.mod_lt n hm
  have hmod : (n + 1) % m = (n % m + 1) % m := (Nat.mod_add_mod n m 1).symm
  rw [hmod]
  split_ifs with hend
  · have hlast : n % m + 1 = m := by omega
    rw [hlast, Nat.mod_self]
  · exact (Nat.mod_eq_of_lt (by omega)).symm

/-- The slots are taken in turn, from slot `n` on. -/
theorem nextTemplateIndex_foldl (hmax : 0 < hdr.maxTemplatesInMemory) {n : ℕ} {calls : List Call}
    (hfit : ∀ c ∈ calls, answerFits hdr c.gbt = true) {r : Ring}
    (hr : r.nextTemplateIndex = n % hdr.maxTemplatesInMemory) :
    (calls.foldl (Ring.step hdr) r).nextTemplateIndex =
      (n + calls.length) % hdr.maxTemplatesInMemory := by
  induction calls generalizing n r with
  | nil => simpa using hr
  | cons c calls ih =>
      obtain ⟨hc, hcalls⟩ := List.forall_mem_cons.mp hfit
      have hnext : (r.step hdr c).nextTemplateIndex = (n + 1) % hdr.maxTemplatesInMemory := by
        rw [(Ring.step_eq hc r).1, hr, nextIndex_eq hmax]
      rw [List.foldl_cons, ih hcalls hnext, List.length_cons]
      congr 1
      omega

/-- No two calls in a row of less than a turn take one slot. -/
theorem index_ne {m n k : ℕ} (h : k + 1 < m) : (n + 1 + k) % m ≠ n % m := by
  intro heq
  have hdvd := Nat.sub_mod_eq_zero_of_mod_eq heq
  rw [show n + 1 + k - n = k + 1 by omega] at hdvd
  rw [Nat.mod_eq_of_lt h] at hdvd
  omega

theorem tally_clear (t : TemplateData) : t.clear.tally = 0 := rfl

/-- Fewer calls than a turn leave the slot before them alone. -/
theorem slots_foldl (hmax : 0 < hdr.maxTemplatesInMemory) {n : ℕ} {calls : List Call}
    (hfit : ∀ c ∈ calls, answerFits hdr c.gbt = true)
    (hturn : calls.length < hdr.maxTemplatesInMemory) {r : Ring}
    (hr : r.nextTemplateIndex = (n + 1) % hdr.maxTemplatesInMemory) :
    (calls.foldl (Ring.step hdr) r).slots (n % hdr.maxTemplatesInMemory) =
      r.slots (n % hdr.maxTemplatesInMemory) := by
  induction calls using List.reverseRecOn with
  | nil => rfl
  | append_singleton calls c ih =>
      rw [List.length_append, List.length_singleton] at hturn
      have hcalls : ∀ c ∈ calls, answerFits hdr c.gbt = true := fun c hc => hfit c (by simp [hc])
      have hindex := nextTemplateIndex_foldl hmax hcalls hr
      rw [List.foldl_append, List.foldl_cons, List.foldl_nil,
        (Ring.step_eq (hfit c (by simp)) _).2, Function.update_of_ne, ih hcalls (by omega)]
      rw [hindex]
      exact (index_ne hturn).symm

/-- **A template lasts for a turn of the ring.** In a run of calls, whatever the
node answers to them as long as the hashes fit their fields: a template that was
handed out is what the node had sent for it, and stays so for the next calls, one
less than there are slots. -/
theorem template_lasts (hhalves : hdr.Halves) {earlier later : List Call} {c : Call}
    (hfit : ∀ c' ∈ earlier ++ c :: later, answerFits hdr c'.gbt = true) {i : ℕ}
    (htemplate : (earlier.foldl (Ring.step hdr) {}).template hdr c.gbt = some i)
    (hturn : later.length < hdr.maxTemplatesInMemory) :
    Faithful hdr c.gbt (((earlier ++ c :: later).foldl (Ring.step hdr) {}).slots i) := by
  have hmax : 0 < hdr.maxTemplatesInMemory := by omega
  simp only [List.forall_mem_append, List.forall_mem_cons] at hfit
  obtain ⟨hearlier, hc, hlater⟩ := hfit
  rw [List.foldl_append, List.foldl_cons]
  set r := earlier.foldl (Ring.step hdr) {} with hr
  obtain ⟨rfl, hnone⟩ := Ring.template_eq_some htemplate
  have hindex : r.nextTemplateIndex = earlier.length % hdr.maxTemplatesInMemory := by
    have hall := nextTemplateIndex_foldl hmax (n := 0) hearlier (r := {}) (by simp)
    rwa [Nat.zero_add] at hall
  obtain ⟨hnext, hslots⟩ := Ring.step_eq hc r
  rw [hindex, nextIndex_eq hmax] at hnext
  rw [hindex, slots_foldl hmax hlater hturn hnext, hslots, ← hindex, Function.update_self]
  exact faithful_of_datumGbtParser hhalves hc (tally_clear _) (Prod.ext rfl hnone)

/-- A template and, with the other of two slots, an answer that is refused. -/
theorem template_lasts_sample : Faithful sampleHeader sampleAnswer
    ((([] ++ (⟨sampleAnswer, id⟩ : Call) :: [⟨.null, id⟩]).foldl (Ring.step sampleHeader) {}).slots
      0) := by
  have hfit : ∀ c ∈ [] ++ (⟨sampleAnswer, id⟩ : Call) :: [⟨.null, id⟩],
      answerFits sampleHeader c.gbt = true := by
    simp only [List.nil_append, List.forall_mem_cons, List.not_mem_nil, false_implies, implies_true,
      and_true]
    exact ⟨by decide +kernel, by decide +kernel⟩
  have htemplate : Ring.template sampleHeader {} sampleAnswer = some 0 := by decide +kernel
  exact template_lasts halves_sampleHeader hfit htemplate (by decide)

end BlockTemplates
