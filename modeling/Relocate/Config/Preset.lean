import Relocate.Config.Folders

/-!
# The built-in table

Shared widgets in `common`, stateful map and route modules in `modules`,
screens in `view`.
-/
namespace Relocate.Preset

def common : List String :=
  ["Button", "Checkbox", "DesktopNotice", "ErrorBoundary", "Input", "LoadingScreen", "Logo",
   "ModeToggle", "Notification", "RadioGroup", "SocialButton", "ThemeToggle"]

def modules : List String :=
  ["BackgroundMap", "GeoLocation", "LocationManager", "ProtectedRoute", "RouteNavigation"]

def view : List String :=
  ["AccessibilityInfo", "BarrierFreeFilter", "BottomNavigation", "CategoryFilter",
   "ChatbotContent", "ChatbotPanel", "CourseThumbnailMap", "DogRiveAnimation",
   "FavoriteMapModal", "FavoritesBottomSheet", "JejuPalettePreview", "LocationPicker",
   "LocationPickerModal", "MapSideFilters", "OnboardingOverlay", "SideNavigation",
   "SpotDetailModal", "SpotInteractionSheet", "SwipeableCardList", "WeatherWidget"]

def table : FolderTable := .ofRows [("common", common), ("modules", modules), ("view", view)]

end Relocate.Preset
