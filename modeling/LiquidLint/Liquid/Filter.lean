/-!
# Known filters

The names of the filters that Liquid themes may use, by topic. `filterNames` lists all of them in
alphabetical order.
-/

namespace LiquidLint.Liquid

/-- Filters on lists. -/
def arrayFilters : List String :=
  ["compact", "concat", "first", "join", "last", "map", "reverse", "size", "sort", "sort_natural",
    "sum", "uniq", "where"]

/-- Filters on colours. -/
def colorFilters : List String :=
  ["brightness_difference", "color_brightness", "color_contrast", "color_darken",
    "color_desaturate", "color_difference", "color_extract", "color_lighten", "color_mix",
    "color_modify", "color_saturate", "color_to_hex", "color_to_hsl", "color_to_rgb",
    "hex_to_rgba"]

/-- Filters on markup. -/
def htmlFilters : List String :=
  ["highlight", "link_to", "placeholder_svg_tag", "preload_tag", "script_tag", "stylesheet_tag",
    "time_tag"]

/-- Filters on numbers. -/
def mathFilters : List String :=
  ["abs", "at_least", "at_most", "ceil", "divided_by", "floor", "minus", "modulo", "plus", "round",
    "times"]

/-- Filters on amounts of money. -/
def moneyFilters : List String :=
  ["money", "money_with_currency", "money_without_currency", "money_without_trailing_zeros"]

/-- Filters on text. -/
def stringFilters : List String :=
  ["append", "camelize", "capitalize", "downcase", "escape", "escape_once", "handleize", "lstrip",
    "md5", "newline_to_br", "pluralize", "prepend", "remove", "remove_first", "replace",
    "replace_first", "rstrip", "sha1", "sha256", "slice", "split", "strip", "strip_html",
    "strip_newlines", "truncate", "truncatewords", "upcase", "url_decode", "url_encode",
    "url_escape", "url_param_escape"]

/-- Filters on addresses. -/
def urlFilters : List String :=
  ["asset_img_url", "asset_url", "file_img_url", "file_url", "img_url", "shopify_asset_url",
    "within"]

/-- Filters on dates, defaults and data. -/
def additionalFilters : List String :=
  ["date", "default", "default_errors", "default_pagination", "format_address", "json",
    "weight_with_unit"]

/-- Filters that work without being documented. -/
def undocumentedFilters : List String :=
  ["customer_logout_link", "customer_register_link", "format_code", "handle", "product_img_url",
    "t", "translate"]

/-- All filter names, in alphabetical order. -/
def filterNames : List String :=
  (arrayFilters ++ colorFilters ++ htmlFilters ++ mathFilters ++ moneyFilters ++ stringFilters ++
    urlFilters ++ additionalFilters ++ undocumentedFilters).mergeSort (fun a b => decide (a ≤ b))

/-- Whether a filter is known. -/
def isKnownFilter (name : String) : Bool := filterNames.contains name

end LiquidLint.Liquid
