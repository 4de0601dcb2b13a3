import MatrixScript.Proofs.Parser.Layout
import MatrixScript.Proofs.Symbol.Gathering

/-! The spans of symbols and literals.

Main statement: the text at the span of a symbol is its name, and the text at the span of a number or
string is this literal. The parameters of anonymous functions have the place of the function instead. -/
namespace MatrixScript

/-- A parameter of an anonymous function, at the place of the function. -/
def Program.HasParam (p : Program) (name : String) (span : Span) : Prop :=
  ∃ params body, .expr (.anonymous params body span) ∈ p.nodes ∧ name ∈ params

/-- The symbols and literals of a program stand in the text where their spans say. -/
structure SymbolsShown (text : String) (p : Program) : Prop where
  references : ∀ r ∈ p.symbols.references, '.' ∉ r.name.toList →
    Shows text r.name r.span ∨ p.HasParam r.name r.span
  definitions : ∀ d ∈ p.symbols.definitions, Shows text d.name d.span ∨ p.HasParam d.name d.span
  numbers : ∀ word span, .expr (.number word span) ∈ p.nodes → Shows text word span
  strings : ∀ word span, .expr (.string word span) ∈ p.nodes → Shows text word span

section

variable {text : String} {code : Code}

theorem Variable.StandsIn.shows (hts : ∀ t ∈ code.all, Shows text t.text t.span) {v : Variable}
    (h : v.StandsIn code.all) : Shows text v.name v.span := by
  obtain ⟨t, ht, hnames, hspan⟩ := h
  rw [← hnames.text_eq, ← hspan]
  exact hts t ht

theorem NameUse.StartsAt.shows {use : NameUse Expr} {t : Token} (hshows : Shows text t.text t.span)
    (hspelled : t.WellSpelled) (h : use.StartsAt t) : Shows text use.root use.rootSpan := by
  have hline := (hspelled.isWord h.names.isName).1.newline_not_mem
  have hspan : t.span = use.rootSpan := by
    rw [hshows.span_eq_right hline, h.start_eq, h.names.text_eq, NameUse.rootSpan]
  rwa [h.names.text_eq, hspan] at hshows

theorem Stands.shows (hts : ∀ t ∈ code.all, Shows text t.text t.span) {word : String} {span : Span}
    (h : Stands code.all word span) : Shows text word span := by
  induction h with
  | token ht => exact hts _ ht
  | join _ ht hstop ih => exact ih.append (hts _ ht) hstop

/-- A name collected at a node is shown there, unless it is a parameter of an anonymous function. -/
theorem Node.Placed.shows (hts : ∀ t ∈ code.all, Shows text t.text t.span)
    (hspelled : ∀ t ∈ code.all, t.WellSpelled) {n : Node} (h : n.Placed code) {v : Variable}
    (hv : v ∈ n.sites) :
    Shows text v.name v.span ∨
      ∃ params body, n = .expr (.anonymous params body v.span) ∧ v.name ∈ params := by
  cases n with
  | expr e =>
    cases e with
    | name use =>
      obtain rfl := List.mem_singleton.mp hv
      obtain ⟨⟨t, ht, hstarts⟩, _⟩ := h
      exact .inl (hstarts.shows (hts t ht) (hspelled t ht))
    | handle function span =>
      obtain rfl := List.mem_singleton.mp hv
      exact .inl (Variable.StandsIn.shows hts h)
    | named value =>
      obtain rfl := List.mem_singleton.mp hv
      exact .inl (Variable.StandsIn.shows hts h)
    | anonymous params body span =>
      obtain ⟨param, hparam, rfl⟩ := List.mem_map.mp hv
      exact .inr ⟨params, body, rfl, hparam⟩
    | _ => contradiction
  | stmt s => exact .inl (Variable.StandsIn.shows hts (h.1 v hv))
  | _ => contradiction

theorem SymbolsShown.of_placed {p : Program} (h : ∀ n ∈ p.nodes, n.Placed code)
    (hts : ∀ t ∈ code.all, Shows text t.text t.span) (hspelled : ∀ t ∈ code.all, t.WellSpelled) :
    SymbolsShown text p := by
  have hsite {name : String} {span : Span} (hmem : ∃ n ∈ p.nodes, ⟨name, span⟩ ∈ n.sites) :
      Shows text name span ∨ p.HasParam name span := by
    obtain ⟨n, hn, hv⟩ := hmem
    obtain hshown | ⟨params, body, rfl, hparam⟩ := (h n hn).shows hts hspelled hv
    · exact .inl hshown
    · exact .inr ⟨params, body, hn, hparam⟩
  exact
    { references := fun r hr hname => hsite (p.symbols_within.1 r hr hname)
      definitions := fun d hd => hsite (p.symbols_within.2 d hd)
      numbers := fun _ _ hn => Stands.shows hts (h _ hn)
      strings := fun _ _ hn => Stands.shows hts (h _ hn) }

end

/-- Rename and navigation can trust the spans of symbols: the text there is the name. -/
theorem symbols_shown (limit : Int) (text : String) (tokens : List Token)
    (htokens : tokenize limit text = .ok tokens) : SymbolsShown text (parse tokens).program := by
  have hreads := ((tokenize_eq_ok_iff limit text tokens).mp htokens).1
  have hts : ∀ t ∈ (Code.ofTokens tokens).all, Shows text t.text t.span :=
    fun t ht => tokens_shown hreads t (Code.all_subset hreads t ht)
  have hspelled : ∀ t ∈ (Code.ofTokens tokens).all, t.WellSpelled :=
    fun t ht => hreads.wellSpelled t (Code.all_subset hreads t ht)
  exact .of_placed hreads.nodes_placed hts hspelled

/-- The tokens of `hold x-1`, a command with one word of three tokens. -/
def holdWord : List Token := [
  ⟨.native, "hold", ⟨⟨0, 0⟩, ⟨0, 4⟩⟩⟩, ⟨.identifier, "x", ⟨⟨0, 5⟩, ⟨0, 6⟩⟩⟩,
  ⟨.sign .minus, "-", ⟨⟨0, 6⟩, ⟨0, 7⟩⟩⟩, ⟨.number, "1", ⟨⟨0, 7⟩, ⟨0, 8⟩⟩⟩,
  ⟨.eof, "", ⟨⟨0, 8⟩, ⟨0, 8⟩⟩⟩]

theorem symbols_shown_holdWord : tokenize 5 "hold x-1" = .ok holdWord ∧
    SymbolsShown "hold x-1" (parse holdWord).program :=
  ⟨rfl, symbols_shown 5 _ holdWord rfl⟩

end MatrixScript
